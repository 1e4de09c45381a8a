import PhpAtlas.Tree.Detach
import PhpAtlas.Proofs.Building.Sources
import PhpAtlas.Proofs.Tree.Slots

/-! # Detached trees are copies

A detached tree has the nodes of the tree that it was taken from, numbered in
the order of a visit. Walks over the two agree under the numbering, so that a
tree detached from a detached tree is the one detached from the whole.
-/

namespace PhpAtlas.Arena

variable {a b : Arena} {m n x y : NodeId} {k : Node}

/-! ## Numbering a list -/

section Numbering

variable {l l' : List NodeId} {i : Nat}

theorem idxOf?_of_mem (h : x ∈ l) : l.idxOf? x = some (l.idxOf x) := by
  rw [List.idxOf?, List.idxOf]
  exact List.findIdx?_eq_some_iff_findIdx_eq.mpr ⟨List.idxOf_lt_length_of_mem h, rfl⟩

theorem getElem?_filterMap {β : Type} {f : NodeId → Option β} (h : ∀ x ∈ l, (f x).isSome) :
    (l.filterMap f)[i]? = l[i]?.bind f := by
  induction l generalizing i with
  | nil => rfl
  | cons x l ih =>
    obtain ⟨y, hy⟩ := Option.isSome_iff_exists.mp (h x List.mem_cons_self)
    rw [List.filterMap_cons_some hy]
    cases i with
    | zero => simp [hy]
    | succ i => simpa using ih fun z hz => h z (List.mem_cons_of_mem x hz)

/-- A list without repetitions numbers itself from zero on. -/
theorem map_idxOf (h : l.Nodup) : l.map l.idxOf = List.range l.length := by
  refine List.ext_getElem (by simp) fun i hi hr => ?_
  rw [List.getElem_map, List.getElem_range]
  exact h.idxOf_getElem i (by simpa using hi)

/-- Numbering a part of a list in two steps is numbering it in one. -/
theorem idxOf?_bind (hsub : l' ⊆ l) (x : NodeId) :
    (l.idxOf? x).bind (l'.map l.idxOf).idxOf? = l'.idxOf? x := by
  by_cases hx : x ∈ l
  · rw [idxOf?_of_mem hx, Option.bind_some]
    induction l' with
    | nil => rfl
    | cons y l' ih =>
      obtain ⟨hy, hl⟩ := List.cons_subset.mp hsub
      rw [List.map_cons, List.idxOf?_cons, List.idxOf?_cons, ih hl]
      simp only [beq_iff_eq, List.idxOf_inj hy]
  · have hx' : x ∉ l' := fun h => hx (hsub h)
    rw [List.idxOf?_eq_none_iff.mpr hx, List.idxOf?_eq_none_iff.mpr hx']
    rfl

end Numbering

/-! ## Nodes of a detached tree -/

theorem Forest.mem_descendants (h : a.Forest) (hn : n < a.size) :
    x ∈ a.descendants n ↔ a.Reaches n x := by
  rw [h.descendants_eq]
  exact h.mem_treeOrder hn

theorem Forest.lt_of_mem_descendants (h : a.Forest) (hn : n < a.size)
    (hx : x ∈ a.descendants n) : x < a.size :=
  (h.le_of_reaches ((h.mem_descendants hn).mp hx)).trans_lt hn

theorem Forest.nodup_descendants (h : a.Forest) (hn : n < a.size) : (a.descendants n).Nodup := by
  rw [h.descendants_eq]
  exact h.nodup_treeOrder hn

theorem Forest.descendants_subset (h : a.Forest) (hn : n < a.size) (hm : m ∈ a.descendants n) :
    a.descendants m ⊆ a.descendants n := by
  intro x hx
  have hr := (h.mem_descendants hn).mp hm
  have hr' := (h.mem_descendants (h.lt_of_mem_descendants hn hm)).mp hx
  exact (h.mem_descendants hn).mpr (hr.trans hr')

theorem Forest.mem_descendants_of_child (h : a.Forest) (hn : n < a.size)
    (hx : x ∈ a.descendants n) (hy : y ∈ a.children x) : y ∈ a.descendants n :=
  (h.mem_descendants hn).mpr (((h.mem_descendants hn).mp hx).tail hy)

/-- Above every node of a tree but its root there is a node of the tree. -/
theorem Forest.parent_mem_descendants (h : a.Forest) (hn : n < a.size)
    (hx : x ∈ a.descendants n) (hne : x ≠ n) : ∃ p ∈ a.descendants n, a.parent? x = some p := by
  rcases Relation.ReflTransGen.cases_tail ((h.mem_descendants hn).mp hx) with rfl | ⟨p, hp, hc⟩
  · exact absurd rfl hne
  · exact ⟨p, (h.mem_descendants hn).mpr hp, (h.parent x p).mpr hc⟩

/-- The root of a tree is not below a node of the tree. -/
theorem Forest.parent_not_mem_descendants (h : a.Forest) (hn : n < a.size) {p : NodeId}
    (hp : a.parent? n = some p) : p ∉ a.descendants n := fun hm =>
  absurd (h.le_of_reaches ((h.mem_descendants hn).mp hm))
    (not_le.mpr (h.before p n ((h.parent n p).mp hp)))

theorem Forest.node?_of_mem_descendants (h : a.Forest) (hn : n < a.size)
    (hx : x ∈ a.descendants n) : ∃ k, a.node? x = some k :=
  exists_node? (h.lt_of_mem_descendants hn hx)

theorem Forest.node?_detach (h : a.Forest) (hn : n < a.size) (hx : x ∈ a.descendants n) :
    (a.detach n).node? ((a.descendants n).idxOf x) =
      (a.node? x).map (relink (a.descendants n).idxOf?) := by
  rw [node?, detach, List.getElem?_toArray, getElem?_filterMap, List.getElem?_idxOf hx]
  · rfl
  · intro y hy
    obtain ⟨k, hk⟩ := h.node?_of_mem_descendants hn hy
    rw [hk]
    rfl

theorem placement?_detach (hx : x ∈ a.descendants n) :
    (a.detach n).placement? ((a.descendants n).idxOf x) =
      some (relinkPlacement (a.descendants n).idxOf? ((a.placement? x).getD {})) := by
  rw [placement?, detach, List.getElem?_toArray, List.getElem?_map, List.getElem?_idxOf hx]
  rfl

theorem Forest.size_detach (h : a.Forest) (hn : n < a.size) :
    (a.detach n).size = (a.descendants n).length := by
  have hsome : ∀ x ∈ a.descendants n,
      ((a.node? x).map (relink (a.descendants n).idxOf?)).isSome := by
    intro x hx
    obtain ⟨k, hk⟩ := h.node?_of_mem_descendants hn hx
    rw [hk]
    rfl
  rw [size, detach, List.size_toArray, List.length_filterMap_eq_countP, List.countP_eq_length]
  exact hsome

/-! ## Walks over a detached tree -/

/-- Walks agree over nodes that a map sends to nodes with the mapped children. -/
theorem walk_map {f : NodeId → NodeId} {p : NodeId → Prop}
    (h : ∀ i, p i → (∃ k, a.node? i = some k) ∧ (∃ k, b.node? (f i) = some k) ∧
      b.children (f i) = (a.children i).map f ∧ ∀ c ∈ a.children i, p c)
    {fuel : Nat} {stack : List NodeId} (hs : ∀ i ∈ stack, p i) :
    b.walk fuel (stack.map f) = (a.walk fuel stack).map f := by
  induction fuel generalizing stack with
  | zero => rfl
  | succ fuel ih =>
    cases stack with
    | nil => rfl
    | cons i stack =>
      obtain ⟨⟨k, hk⟩, ⟨k', hk'⟩, hc, hp⟩ := h i (hs i List.mem_cons_self)
      rw [children_of_node? hk] at hc hp
      rw [children_of_node? hk'] at hc
      have hs' : ∀ j ∈ k.children ++ stack, p j := fun j hj =>
        (List.mem_append.mp hj).elim (hp j) fun hj => hs j (List.mem_cons_of_mem i hj)
      simp only [List.map_cons, walk, hk, hk', hc, ← List.map_append, ih hs']

/-- Every link of a node of the tree but the one above its root stays in the tree. -/
theorem Forest.relink_eq (h : a.Forest) (hn : n < a.size) (hx : x ∈ a.descendants n)
    (hk : a.node? x = some k) : relink (a.descendants n).idxOf? k =
      { k with
        payload := k.payload.map (Option.map (a.descendants n).idxOf)
        parent := if x = n then none else k.parent.map (a.descendants n).idxOf } := by
  have hparent : a.parent? x = k.parent := by rw [parent?, hk, Option.bind_some]
  rw [relink, Node.mk.injEq]
  refine ⟨Payload.map_congr fun o ho => ?_, rfl, rfl, ?_⟩
  · cases o with
    | none => rfl
    | some c =>
      have hc : c ∈ k.children := List.mem_filterMap.mpr ⟨some c, ho, rfl⟩
      exact idxOf?_of_mem (h.mem_descendants_of_child hn hx (children_of_node? hk ▸ hc))
  · split
    · next heq =>
      subst heq
      cases hp : k.parent with
      | none => rfl
      | some p => exact List.idxOf?_eq_none_iff.mpr (h.parent_not_mem_descendants hn (hparent ▸ hp))
    · next hne =>
      obtain ⟨p, hp, hpx⟩ := h.parent_mem_descendants hn hx hne
      rw [← hparent, hpx]
      exact idxOf?_of_mem hp

theorem Forest.children_detach (h : a.Forest) (hn : n < a.size) (hx : x ∈ a.descendants n) :
    (a.detach n).children ((a.descendants n).idxOf x) =
      (a.children x).map (a.descendants n).idxOf := by
  obtain ⟨k, hk⟩ := h.node?_of_mem_descendants hn hx
  have hd := h.node?_detach hn hx
  rw [hk, Option.map_some, h.relink_eq hn hx hk] at hd
  rw [children_of_node? hd, children_of_node? hk, Node.children, Node.children, Payload.slots_map,
    List.filterMap_map, List.map_filterMap]
  rfl

theorem Forest.length_descendants_le (h : a.Forest) (hn : n < a.size) (hm : m ∈ a.descendants n) :
    (a.descendants m).length ≤ (a.descendants n).length :=
  have hms := h.lt_of_mem_descendants hn hm
  ((h.nodup_descendants hms).subperm (h.descendants_subset hn hm)).length_le

/-- The tree under a copied node is the copy of the tree under the node. -/
theorem Forest.descendants_detach (h : a.Forest) (hn : n < a.size) (hm : m ∈ a.descendants n) :
    (a.detach n).descendants ((a.descendants n).idxOf m) =
      (a.descendants m).map (a.descendants n).idxOf := by
  have hms := h.lt_of_mem_descendants hn hm
  have hchildren : ∀ x ∈ a.descendants n, (∃ k, a.node? x = some k) ∧
      (∃ k, (a.detach n).node? ((a.descendants n).idxOf x) = some k) ∧
      (a.detach n).children ((a.descendants n).idxOf x) =
        (a.children x).map (a.descendants n).idxOf ∧
      ∀ c ∈ a.children x, c ∈ a.descendants n := by
    intro x hx
    obtain ⟨k, hk⟩ := h.node?_of_mem_descendants hn hx
    have hd := h.node?_detach hn hx
    rw [hk, Option.map_some] at hd
    exact ⟨⟨k, hk⟩, ⟨_, hd⟩, h.children_detach hn hx, fun c => h.mem_descendants_of_child hn hx⟩
  have hstack : ∀ x ∈ [m], x ∈ a.descendants n := by simpa using hm
  have hwalk : (a.detach n).descendants ((a.descendants n).idxOf m) =
      (a.walk ((a.detach n).size + 1) [m]).map (a.descendants n).idxOf :=
    walk_map hchildren hstack
  have hfuel : a.steps [m] ≤ (a.detach n).size + 1 := by
    obtain ⟨k, hk⟩ := exists_node? hms
    rw [steps, h.size_detach hn, List.flatMap_singleton, ← h.descendants_eq]
    simpa [hk] using (h.length_descendants_le hn hm).trans (Nat.le_succ _)
  rwa [h.walk_eq hfuel, List.flatMap_singleton, ← h.descendants_eq] at hwalk

theorem Forest.idxOf_root (h : a.Forest) (hn : n < a.size) : (a.descendants n).idxOf n = 0 := by
  rw [h.descendants_eq, h.treeOrder_eq hn]
  exact List.idxOf_cons_self

theorem Forest.root_mem_descendants (h : a.Forest) (hn : n < a.size) : n ∈ a.descendants n :=
  (h.mem_descendants hn).mpr .refl

/-! ## Detaching twice -/

theorem relink_relink (f g : NodeId → Option NodeId) (k : Node) :
    relink g (relink f k) = relink (fun x => (f x).bind g) k := by
  simp only [relink, Payload.map_map, Function.comp_def, Option.bind_assoc]

theorem relinkPlacement_relinkPlacement (f g : NodeId → Option NodeId) (p : Placement) :
    relinkPlacement g (relinkPlacement f p) = relinkPlacement (fun x => (f x).bind g) p := by
  simp only [relinkPlacement, Option.bind_assoc]

/-- A tree that is detached from a detached tree is the one detached from the whole. -/
theorem Forest.detach_detach (h : a.Forest) (hn : n < a.size) (hm : m ∈ a.descendants n) :
    (a.detach n).detach ((a.descendants n).idxOf m) = a.detach m := by
  have hsub := h.descendants_subset hn hm
  have hpos : (fun x => ((a.descendants n).idxOf? x).bind
      ((a.descendants m).map (a.descendants n).idxOf).idxOf?) = (a.descendants m).idxOf? :=
    funext (idxOf?_bind hsub)
  rw [detach, h.descendants_detach hn hm, detach.eq_def a m, Arena.mk.injEq]
  refine ⟨congrArg List.toArray ?_, congrArg List.toArray ?_, rfl⟩
  · rw [List.filterMap_map]
    refine List.filterMap_congr fun x hx => ?_
    rw [Function.comp_apply, h.node?_detach hn (hsub hx), Option.map_map, ← hpos]
    exact congrFun (congrArg Option.map (funext (relink_relink _ _))) _
  · rw [List.map_map]
    refine List.map_congr_left fun x hx => ?_
    rw [Function.comp_apply, placement?_detach (hsub hx), Option.getD_some,
      relinkPlacement_relinkPlacement, hpos]

/-! ## Copies -/

/-- `b` is the tree under `n` on its own: a node has the place that a visit of the tree gives it,
its links are those of the tree, and links that leave the tree are gone. -/
structure CopyOf (a : Arena) (n : NodeId) (b : Arena) : Prop where
  once : (a.descendants n).Nodup
  root : n ∈ a.descendants n ∧ (a.descendants n).idxOf n = 0
  size : b.nodes.size = (a.descendants n).length
  placements : b.placements.size = (a.descendants n).length
  descendants : b.descendants 0 = List.range (a.descendants n).length
  node : ∀ x ∈ a.descendants n, ∃ k, a.node? x = some k ∧
    b.node? ((a.descendants n).idxOf x) = some
      { k with
        payload := k.payload.map (Option.map (a.descendants n).idxOf)
        parent := if x = n then none else k.parent.map (a.descendants n).idxOf }
  kind : ∀ x ∈ a.descendants n, b.kind? ((a.descendants n).idxOf x) = a.kind? x
  children : ∀ x ∈ a.descendants n, a.children x ⊆ a.descendants n
  parent : ∀ x ∈ a.descendants n, x ≠ n → ∃ p ∈ a.descendants n, a.parent? x = some p
  placement : ∀ x ∈ a.descendants n, ∃ p, a.placement? x = some p ∧
    b.placement? ((a.descendants n).idxOf x) = some
      { p with
        classLike := p.classLike.bind (a.descendants n).idxOf?
        function := p.function.bind (a.descendants n).idxOf? }
  scope : ∀ x ∈ a.descendants n, b.scopeAt? ((a.descendants n).idxOf x) = a.scopeAt? x
  again : ∀ m ∈ a.descendants n, b.detach ((a.descendants n).idxOf m) = a.detach m

theorem Forest.exists_placement? (h : a.Forest) (hx : x < a.size) : ∃ p, a.placement? x = some p :=
  ⟨_, Array.getElem?_eq_getElem (h.placements ▸ hx)⟩

theorem Forest.copyOf_detach (h : a.Forest) (hn : n < a.size) : a.CopyOf n (a.detach n) where
  once := h.nodup_descendants hn
  root := ⟨h.root_mem_descendants hn, h.idxOf_root hn⟩
  size := h.size_detach hn
  placements := by rw [detach, List.size_toArray, List.length_map]
  descendants := by
    have hd := h.descendants_detach hn (h.root_mem_descendants hn)
    rwa [h.idxOf_root hn, map_idxOf (h.nodup_descendants hn)] at hd
  node x hx := by
    obtain ⟨k, hk⟩ := h.node?_of_mem_descendants hn hx
    refine ⟨k, hk, ?_⟩
    rw [h.node?_detach hn hx, hk, Option.map_some, h.relink_eq hn hx hk]
  kind x hx := by
    rw [kind?, h.node?_detach hn hx, kind?, Option.map_map]
    exact congrFun (congrArg Option.map (funext fun k => k.payload.kind_map _)) _
  children x hx c hc := h.mem_descendants_of_child hn hx hc
  parent x hx hne := h.parent_mem_descendants hn hx hne
  placement x hx := by
    obtain ⟨p, hp⟩ := h.exists_placement? (h.lt_of_mem_descendants hn hx)
    refine ⟨p, hp, ?_⟩
    rw [placement?_detach hx, hp]
    rfl
  scope x hx := by
    obtain ⟨p, hp⟩ := h.exists_placement? (h.lt_of_mem_descendants hn hx)
    rw [scopeAt?, placement?_detach hx, scopeAt?, hp]
    rfl
  again m hm := h.detach_detach hn hm

end PhpAtlas.Arena

namespace PhpAtlas.Parsed

/-- What is detached from the tree of a source, decorated or not, is a copy of a part of it. -/
theorem copyOf_detach_ofSource (source : List Char) (n : NodeId)
    (hn : n < (ofSource source).arena.size) :
    (ofSource source).arena.CopyOf n ((ofSource source).arena.detach n) ∧
      ∀ root, ((ofSource source).arena.decorate (some root)).CopyOf n
        (((ofSource source).arena.decorate (some root)).detach n) := by
  obtain ⟨s, r, hs, -, he⟩ := sound_ofSource source
  rw [he] at hn ⊢
  refine ⟨hs.forest.copyOf_detach hn, fun root => ?_⟩
  apply (hs.forest.decorate root).copyOf_detach
  rwa [Arena.size, Arena.nodes_decorate]

/-- A method that is cut out of its class, to which only names still link it. -/
theorem copyOf_detach_method :
    ∃ a root, a = (ofSource "<?php class A { function f() { return g(1); } }".toList).arena ∧
      a.size = 10 ∧ a.CopyOf 7 (a.detach 7) ∧
      (a.decorate (some root)).CopyOf 7 ((a.decorate (some root)).detach 7) := by
  have hsize :
      (ofSource "<?php class A { function f() { return g(1); } }".toList).arena.size = 10 := by
    decide +kernel
  have hn : 7 < (ofSource "<?php class A { function f() { return g(1); } }".toList).arena.size := by
    rw [hsize]
    decide
  obtain ⟨hbare, hdecorated⟩ := copyOf_detach_ofSource _ 7 hn
  exact ⟨_, _, rfl, hsize, hbare, hdecorated 9⟩

end PhpAtlas.Parsed
