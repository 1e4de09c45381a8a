import PhpAtlas.Proofs.Building.Sources
import PhpAtlas.Proofs.Tree.Imports
import PhpAtlas.Proofs.Tree.Named
import PhpAtlas.Proofs.Tree.Path

/-! # Decoration read from below

The walk that decorates a tree carries a context down from the root. At every
node the context is what the path from the node up to the root says.
-/

namespace PhpAtlas.Arena

variable {a b : Arena} {c : Context} {i j root : NodeId} {n : Node} {path : List NodeId}

theorem regionScope_congr (h : b.nodes = a.nodes) : b.regionScope = a.regionScope := by
  funext region home
  unfold regionScope regionStatements
  simp only [payload?_congr h]

theorem parentName_congr (h : b.nodes = a.nodes) : b.parentName = a.parentName := by
  funext c parents
  unfold parentName
  simp only [payload?_congr h]

/-- The context says what is around the lower end of a path. -/
structure Describes (a : Arena) (root : NodeId) (path : List NodeId) (c : Context) : Prop where
  classLike : c.classLike = a.classLikeOn? path
  function : c.function = a.functionOn? path
  className : c.className = (a.classLikeOn? path).bind a.qualifiedName?
  parentClassName : c.parentClassName = (a.classLikeOn? path).bind a.extendedName?
  scope : c.scope = a.regionScope (a.regionOn root path) (a.homeOn? path)
  scopeId : ∃ id, c.scopeId = some id ∧ a.scopes[id]? = some c.scope

theorem Describes.namespaceName (h : a.Describes root path c) :
    c.scope.namespaceName = a.homeOn? path := by
  rw [h.scope, namespaceName_regionScope]

theorem Describes.qualifiedName? (h : a.Describes root path c) (hpath : a.path i = i :: path)
    (hi : a.isNamespace i = false) :
    a.qualifiedName? i = (a.declaredName? i).map c.scope.qualify := by
  rw [Arena.qualifiedName?, hpath, homeOn?_cons, hi, ← h.namespaceName]
  rfl

/-- A node that opens nothing leaves the context as it is. -/
theorem Describes.plain (h : a.Describes root path c) (hc : a.isClassLike i = false)
    (hf : a.isFunction i = false) (hn : a.isNamespace i = false) :
    a.Describes root (i :: path) c where
  classLike := by rw [classLikeOn?_cons, hc]; exact h.classLike
  function := by rw [functionOn?_cons, hc, hf]; exact h.function
  className := by rw [classLikeOn?_cons, hc]; exact h.className
  parentClassName := by rw [classLikeOn?_cons, hc]; exact h.parentClassName
  scope := by rw [regionOn_cons, homeOn?_cons, hn]; exact h.scope
  scopeId := h.scopeId

theorem Describes.intoFunction (h : a.Describes root path c) (hc : a.isClassLike i = false)
    (hf : a.isFunction i = true) (hn : a.isNamespace i = false) :
    a.Describes root (i :: path) { c with function := some i } where
  classLike := by rw [classLikeOn?_cons, hc]; exact h.classLike
  function := by rw [functionOn?_cons, hc, hf]; rfl
  className := by rw [classLikeOn?_cons, hc]; exact h.className
  parentClassName := by rw [classLikeOn?_cons, hc]; exact h.parentClassName
  scope := by rw [regionOn_cons, homeOn?_cons, hn]; exact h.scope
  scopeId := h.scopeId

theorem Describes.intoClassLike (h : a.Describes root path c) (hc : a.isClassLike i = true)
    (hn : a.isNamespace i = false) :
    a.Describes root (i :: path) { c with
      classLike := some i
      function := none
      className := a.qualifiedName? i
      parentClassName := a.extendedName? i } where
  classLike := by rw [classLikeOn?_cons, hc]; rfl
  function := by rw [functionOn?_cons, hc]; rfl
  className := by rw [classLikeOn?_cons, hc]; rfl
  parentClassName := by rw [classLikeOn?_cons, hc]; rfl
  scope := by rw [regionOn_cons, homeOn?_cons, hn]; exact h.scope
  scopeId := h.scopeId

theorem Describes.intoNamespace (h : a.Describes root path c) (hc : a.isClassLike i = false)
    (hf : a.isFunction i = false) (hn : a.isNamespace i = true) {id : Nat}
    (hs : a.scopes[id]? = some (a.regionScope i (a.namespaceName? i))) :
    a.Describes root (i :: path) { c with
      scopeId := some id
      scope := a.regionScope i (a.namespaceName? i) } where
  classLike := by rw [classLikeOn?_cons, hc]; exact h.classLike
  function := by rw [functionOn?_cons, hc, hf]; exact h.function
  className := by rw [classLikeOn?_cons, hc]; exact h.className
  parentClassName := by rw [classLikeOn?_cons, hc]; exact h.parentClassName
  scope := by rw [regionOn_cons, homeOn?_cons, hn]; rfl
  scopeId := ⟨id, rfl, hs⟩

/-- The scope of a node that keeps the scope around it. -/
theorem Describes.scopeAt? (h : a.Describes root path c) {p : Placement}
    (hp : a.placement? i = some p) (hs : p.scope = c.scopeId) : a.scopeAt? i = some c.scope := by
  obtain ⟨id, hid, hscope⟩ := h.scopeId
  rw [Arena.scopeAt?, hp]
  show p.scope.bind (fun id => a.scopes[id]?) = some c.scope
  rw [hs, hid]
  exact hscope

/-- The name that a class-like takes its parent from, resolved in the scope around it. -/
theorem extendedName?_of_scopeAt? {form : ClassForm} {d : ClassDecl (Option NodeId)}
    (hi : a.payload? i = some (.classLike form d)) (hs : a.scopeAt? i = some c.scope) :
    a.extendedName? i = if form = .ordinary then a.parentName c d.parents else none := by
  cases form with
  | ordinary =>
    rw [if_pos rfl]
    simp only [extendedName?, hi, hs, Option.map_some]
    rfl
  | _ => simp only [extendedName?, hi, reduceCtorEq, if_false]

/-- The step of the walk: a node stands between the path above it and the context inside it. -/
theorem Describes.enter (h : a.Describes root path c) (hpath : a.path i = i :: path)
    (hn : a.node? i = some n) (hb : b.nodes = a.nodes) (hs : Grows (b.enterNode c i n).2 a)
    (hp : a.placement? i = some (b.placed c i n)) :
    a.Describes root (i :: path) (b.inside c i n) := by
  have hpay := payload?_of_node? hn
  have hclass := isClassLike_of_payload? hpay
  have hfun := isFunction_of_payload? hpay
  have hspace := isNamespace_of_payload? hpay
  cases hk : n.payload with
  | namespaceBlock name statements braced =>
    rw [hk] at hpay hclass hfun hspace
    have hname : a.namespaceName? i = name := by rw [namespaceName?, hpay]
    have hin : b.enterNode c i n =
        (({ c with scopeId := some (b.internScope (a.regionScope i (a.namespaceName? i))).1,
                   scope := a.regionScope i (a.namespaceName? i) }, none),
          (b.internScope (a.regionScope i (a.namespaceName? i))).2) := by
      simp only [enterNode, hk, enterScope, regionScope_congr hb, hname]
    have hscope := scope_internScope b (a.regionScope i (a.namespaceName? i))
    rw [inside, hin]
    rw [hin] at hs
    exact h.intoNamespace hclass hfun hspace (hs.getElem? hscope)
  | classLike form d =>
    rw [hk] at hpay hclass hfun hspace
    have hin : b.inside c i n = { c with
        classLike := some i
        function := none
        className := (d.name.bind a.identifier?).map c.scope.qualify
        parentClassName := if form = .ordinary then a.parentName c d.parents else none } := by
      simp only [inside, enterNode, hk, identifier?_congr hb, parentName_congr hb]
    have hname : a.qualifiedName? i = (d.name.bind a.identifier?).map c.scope.qualify := by
      rw [h.qualifiedName? hpath hspace, declaredName?, hpay]
    have hid : (b.inside c i n).scopeId = c.scopeId := by rw [hin]
    rw [hin, ← hname, ← extendedName?_of_scopeAt? hpay (h.scopeAt? hp hid)]
    exact h.intoClassLike hclass hspace
  | function form d =>
    rw [hk] at hclass hfun hspace
    have hin : b.inside c i n = { c with function := some i } := by
      simp only [inside, enterNode, hk]
    rw [hin]
    exact h.intoFunction hclass hfun hspace
  | _ =>
    rw [hk] at hclass hfun hspace
    have hin : b.inside c i n = c := by simp only [inside, enterNode, hk]
    rw [hin]
    exact h.plain hclass hfun hspace

/-- Down a placed tree the contexts keep to the paths. -/
theorem Placed.describes_of_reaches (h : a.Placed c i) (hf : a.Forest) (hpath : a.path i = i :: path)
    (hd : a.Describes root path c) (hr : a.Reaches i j) :
    ∃ c' path', a.Placed c' j ∧ a.path j = j :: path' ∧ a.Describes root path' c' := by
  induction hr with
  | refl => exact ⟨c, path, h, hpath, hd⟩
  | tail _ hk ih =>
    obtain ⟨c', path', hp, hpath', hd'⟩ := ih
    cases hp with
    | enter b hn hb hs hp hcs =>
      refine ⟨_, _, hcs _ hk, hf.path_of_child hk, ?_⟩
      rw [hpath']
      exact hd'.enter hpath' hn hb hs hp

/-! ## Decorated trees -/

/-- A node is placed by what the path from it up to the root says. -/
structure PlacedAlong (a : Arena) (root i : NodeId) (p : Placement) : Prop where
  classLike : p.classLike = a.classLikeOn? (a.path i)
  function : p.function = a.functionOn? (a.path i)
  className : p.className = (a.classLikeOn? (a.path i)).bind a.qualifiedName?
  parentClassName : p.parentClassName = (a.classLikeOn? (a.path i)).bind a.extendedName?
  scope : ∃ id s, p.scope = some id ∧ a.scopes[id]? = some s ∧
    s.OfRegion a (a.regionOn root (a.path i)) (a.homeOn? (a.path i))
  classLikeName : ∀ form d, a.payload? i = some (.classLike form d) →
    p.fullName = a.qualifiedName? i
  functionName : ∀ d, a.payload? i = some (.function .function d) → p.fullName = a.qualifiedName? i

/-- Every node under the root is placed along its path, the scopes are told apart by their indices,
and decorating once more changes nothing. -/
structure DecoratedFrom (a : Arena) (root : NodeId) : Prop where
  path : ∀ i, a.Reaches root i → (a.path i).head? = some i ∧ (a.path i).getLast? = some root ∧
    (a.path i).IsChain fun j k => a.parent? j = some k
  placed : ∀ i, a.Reaches root i → ∃ p, a.placement? i = some p ∧ a.PlacedAlong root i p
  inRange : ∀ i p id, a.placement? i = some p → p.scope = some id → id < a.scopes.size
  distinct : a.scopes.toList.Nodup
  again : a.decorate (some root) = a

theorem placement?_opened (a : Arena) {p : Placement}
    (hp : (a.opened root).2.placement? i = some p) : p = {} := by
  obtain ⟨scopes, h⟩ := a.opened_eq root
  rw [h, placement?, undecorated, Array.getElem?_map, Option.map_eq_some_iff] at hp
  obtain ⟨-, -, rfl⟩ := hp
  rfl

theorem grows_opened (a : Arena) (root : NodeId) :
    Grows (a.opened root).2 (a.decorate (some root)) :=
  grows_place ..

theorem describes_opened (a : Arena) (root : NodeId) :
    (a.decorate (some root)).Describes root [] (a.opened root).1 where
  classLike := rfl
  function := rfl
  className := rfl
  parentClassName := rfl
  scope := by
    have hnodes : (a.decorate (some root)).nodes = a.undecorated.nodes := a.nodes_decorate root
    rw [regionScope_congr hnodes]
    rfl
  scopeId :=
    have hscope := a.undecorated.scope_internScope (a.undecorated.regionScope root none)
    ⟨_, rfl, (a.grows_opened root).getElem? hscope⟩

theorem Placed.along (h : a.Placed c i) (hpath : a.path i = i :: path)
    (hd : a.Describes root path c) : ∃ p, a.placement? i = some p ∧ a.PlacedAlong root i p := by
  have hclass {form d} (hi : a.payload? i = some (.classLike form d)) :
      a.fullName? i = a.qualifiedName? i := by
    rw [(h.classLike hi).1, hd.qualifiedName? hpath (isNamespace_of_payload? hi)]
  have hfunction {d} (hi : a.payload? i = some (.function .function d)) :
      a.fullName? i = a.qualifiedName? i := by
    rw [(h.function hi).2, if_pos rfl, hd.qualifiedName? hpath (isNamespace_of_payload? hi)]
  cases h with
  | @enter _ _ n b hn hb hs hp _ =>
    have he := hd.enter hpath hn hb hs hp
    rw [← hpath] at he
    obtain ⟨id, hid, hscope⟩ := he.scopeId
    have hname : a.fullName? i = (b.placed c i n).fullName := by rw [fullName?, hp, Option.bind_some]
    exact ⟨_, hp,
      { classLike := he.classLike
        function := he.function
        className := he.className
        parentClassName := he.parentClassName
        scope := ⟨id, _, hid, hscope, he.scope ▸ ofRegion_regionScope ..⟩
        classLikeName := fun _ _ hi => hname.symm.trans (hclass hi)
        functionName := fun _ hi => hname.symm.trans (hfunction hi) }⟩

theorem Forest.decoratedFrom (hf : a.Forest) (hr : root < a.size) (hp : a.parent? root = none) :
    (a.decorate (some root)).DecoratedFrom root := by
  have hnodes := a.nodes_decorate root
  have hfd := hf.decorate root
  have hrd : root < (a.decorate (some root)).size := by rwa [size, hnodes]
  have hpd : (a.decorate (some root)).parent? root = none := by rwa [parent?_congr hnodes]
  have hplaced (i : NodeId) (hi : (a.decorate (some root)).Reaches root i) :
      ∃ p, (a.decorate (some root)).placement? i = some p ∧
        (a.decorate (some root)).PlacedAlong root i p := by
    obtain ⟨c, path, hc, hpath, hd⟩ := (hf.placed_decorate hr).describes_of_reaches hfd
      (path_of_root hrd hpd) (a.describes_opened root) hi
    exact hc.along hpath hd
  constructor
  · intro i hi
    exact ⟨head?_path ((hfd.le_of_reaches hi).trans_lt hrd), hfd.getLast?_path hrd hpd hi, isChain_path⟩
  · exact hplaced
  · intro i p id hi hid
    by_cases hri : (a.decorate (some root)).Reaches root i
    · obtain ⟨p', hp', along⟩ := hplaced i hri
      obtain rfl := Option.some.inj (hi.symm.trans hp')
      obtain ⟨id', s, hid', hs, -⟩ := along.scope
      obtain rfl := Option.some.inj (hid.symm.trans hid')
      exact (Array.getElem?_eq_some_iff.mp hs).1
    · have ho : OnlyAt ((a.opened root).2.Reaches root) (a.opened root).2
          (a.decorate (some root)) := onlyAt_place ..
      rw [ho.frame i (reaches_congr ho.nodes ▸ hri)] at hi
      rw [placement?_opened a hi] at hid
      cases hid
  · have hnone : (#[] : Array Scope).toList.Nodup := .nil
    have hopened : Grows a.undecorated (a.opened root).2 :=
      grows_internScope _ (a.undecorated.regionScope root none)
    exact (a.grows_opened root).nodup (hopened.nodup hnone)
  · exact a.decorate_decorate (some root) (some root)

/-- A tree that is decorated from its root. -/
structure DecoratedTree (a : Arena) (root : NodeId) : Prop extends a.DecoratedFrom root where
  forest : a.Forest
  root_lt : root < a.size
  root_parent : a.parent? root = none

namespace DecoratedTree

theorem lt_size (h : a.DecoratedTree root) (hi : a.Reaches root i) : i < a.size :=
  (h.forest.le_of_reaches hi).trans_lt h.root_lt

theorem mem_descendants (h : a.DecoratedTree root) (hi : a.Reaches root i) :
    j ∈ a.descendants i ↔ a.Reaches i j := by
  rw [h.forest.descendants_eq, h.forest.mem_treeOrder (h.lt_size hi)]

theorem functionOf?_eq (h : a.DecoratedTree root) (hi : a.Reaches root i) :
    a.functionOf? i = a.functionOn? (a.path i) := by
  obtain ⟨p, hp, along⟩ := h.placed i hi
  rw [functionOf?, hp, Option.bind_some, along.function]

end DecoratedTree

end PhpAtlas.Arena

namespace PhpAtlas.Parsed

theorem decoratedTree_ofSource (source : List Char) :
    (ofSource source).decorated.arena.DecoratedTree (ofSource source).root := by
  obtain ⟨s, root, hs, hl, he⟩ := sound_ofSource source
  have hlt := hl.lt root List.mem_cons_self
  have hp := hl.parentless root List.mem_cons_self
  have hnodes := s.arena.nodes_decorate root
  rw [he]
  exact
    { hs.forest.decoratedFrom hlt hp with
      forest := hs.forest.decorate root
      root_lt := by rwa [Arena.size, decorated, hnodes]
      root_parent := by rwa [decorated, Arena.parent?_congr hnodes] }

/-- Decorating the tree of a source places every node along its path, whatever is wrong with the
source. -/
theorem decorated_from_root (source : List Char) :
    (ofSource source).decorated.arena.DecoratedFrom (ofSource source).root := by
  obtain ⟨s, root, hs, hl, he⟩ := sound_ofSource source
  rw [he]
  exact hs.forest.decoratedFrom (hl.lt root List.mem_cons_self) (hl.parentless root List.mem_cons_self)

end PhpAtlas.Parsed
