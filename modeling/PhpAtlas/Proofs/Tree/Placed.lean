import PhpAtlas.Tree.Decorate
import PhpAtlas.Proofs.Tree.Walk

/-! # Placed trees

Decorating a tree writes to the place of each of its nodes once, and to no
other place. So every node keeps what the walk down to it has found out. Scopes are
only added, so that the index of a scope stays what it is.
-/

namespace PhpAtlas.Arena

variable {a b d : Arena} {c : Context} {i j k : NodeId} {n : Node} {depth : Nat}
variable {p q : NodeId → Prop}

/-! ## Arenas with the same nodes -/

theorem node?_congr (h : b.nodes = a.nodes) : b.node? i = a.node? i := by rw [node?, node?, h]

theorem children_congr (h : b.nodes = a.nodes) : b.children i = a.children i := by
  rw [children, children, node?_congr h]

theorem parent?_congr (h : b.nodes = a.nodes) : b.parent? i = a.parent? i := by
  rw [parent?, parent?, node?_congr h]

theorem payload?_congr (h : b.nodes = a.nodes) : b.payload? i = a.payload? i := by
  rw [payload?, payload?, node?_congr h]

theorem reaches_congr (h : b.nodes = a.nodes) : b.Reaches = a.Reaches := by
  have hc : b.IsChild = a.IsChild := by
    funext i j
    rw [IsChild, IsChild, children_congr h]
  rw [Reaches, Reaches, hc]

/-- `b` has the nodes of `a`, and at most the nodes in `p` are placed differently. -/
structure OnlyAt (p : NodeId → Prop) (a b : Arena) : Prop where
  nodes : b.nodes = a.nodes
  size : b.placements.size = a.placements.size
  frame : ∀ j, ¬p j → b.placement? j = a.placement? j

namespace OnlyAt

theorem refl (p : NodeId → Prop) (a : Arena) : OnlyAt p a a := ⟨rfl, rfl, fun _ _ => rfl⟩

theorem trans (h : OnlyAt p a b) (h' : OnlyAt p b d) : OnlyAt p a d :=
  ⟨h'.nodes.trans h.nodes, h'.size.trans h.size, fun j hj => (h'.frame j hj).trans (h.frame j hj)⟩

theorem mono (h : OnlyAt p a b) (hpq : ∀ j, p j → q j) : OnlyAt q a b :=
  ⟨h.nodes, h.size, fun j hj => h.frame j fun hp => hj (hpq j hp)⟩

theorem undecorated (h : OnlyAt p a b) : b.undecorated = a.undecorated := by
  rw [Arena.undecorated, Arena.undecorated, Array.map_const', Array.map_const', h.nodes, h.size]

theorem forest (h : OnlyAt p a b) (hf : a.Forest) : b.Forest where
  placements := by
    rw [h.size, hf.placements]
    exact congrArg Array.size h.nodes.symm
  ordered i := children_congr h.nodes ▸ hf.ordered i
  before i := children_congr h.nodes ▸ hf.before i
  parent j k := by
    rw [parent?_congr h.nodes, children_congr h.nodes]
    exact hf.parent j k

end OnlyAt

/-- `b` has the scopes of `a` under their indices, and none twice if `a` has none twice. -/
structure Grows (a b : Arena) : Prop where
  kept : a.scopes.toList <+: b.scopes.toList
  nodup : a.scopes.toList.Nodup → b.scopes.toList.Nodup

namespace Grows

theorem of_eq (h : b.scopes = a.scopes) : Grows a b :=
  ⟨h ▸ List.prefix_rfl, h ▸ id⟩

theorem trans (h : Grows a b) (h' : Grows b d) : Grows a d :=
  ⟨h.kept.trans h'.kept, h'.nodup ∘ h.nodup⟩

theorem getElem? (h : Grows a b) {id : Nat} {s : Scope} (hs : a.scopes[id]? = some s) :
    b.scopes[id]? = some s := by
  rw [← Array.getElem?_toList] at hs ⊢
  obtain ⟨rest, hrest⟩ := h.kept
  obtain ⟨hlt, -⟩ := List.getElem?_eq_some_iff.mp hs
  rw [← hrest, List.getElem?_append_left hlt, hs]

end Grows

/-! ## One step -/

theorem grows_internScope (a : Arena) (s : Scope) : Grows a (a.internScope s).2 := by
  unfold internScope
  split
  · exact .of_eq rfl
  · next hs =>
    have hnew : s ∉ a.scopes.toList := List.idxOf?_eq_none_iff.mp hs
    constructor
    · rw [Array.toList_push]
      exact List.prefix_append ..
    · intro hd
      rw [Array.toList_push]
      exact List.concat_eq_append ▸ hd.concat hnew

theorem scope_internScope (a : Arena) (s : Scope) :
    (a.internScope s).2.scopes[(a.internScope s).1]? = some s := by
  unfold internScope
  split
  · next id hs =>
    obtain ⟨hlt, heq, -⟩ := List.idxOf?_eq_some_iff.mp hs
    rw [← Array.getElem?_toList, List.getElem?_eq_getElem hlt, heq]
  · exact Array.getElem?_push_size

theorem internScope_eq (a : Arena) (s : Scope) :
    ∃ scopes, (a.internScope s).2 = { a with scopes } := by
  unfold internScope
  split
  · exact ⟨a.scopes, rfl⟩
  · exact ⟨a.scopes.push s, rfl⟩

theorem enterNode_eq (a : Arena) (c : Context) (i : NodeId) (n : Node) :
    ∃ scopes, (a.enterNode c i n).2 = { a with scopes } := by
  unfold enterNode
  split
  · exact a.internScope_eq _
  all_goals exact ⟨a.scopes, rfl⟩

theorem grows_enterNode (a : Arena) (c : Context) (i : NodeId) (n : Node) :
    Grows a (a.enterNode c i n).2 := by
  unfold enterNode
  split
  · exact a.grows_internScope _
  all_goals exact .of_eq rfl

/-- The arena with one more node placed. -/
def placeNode (a : Arena) (c : Context) (i : NodeId) (n : Node) : Arena :=
  let ((inner, fullName), a) := a.enterNode c i n
  { a with placements := a.placements.setIfInBounds i (inner.placement fullName) }

/-- The context around the children of a node. -/
abbrev inside (a : Arena) (c : Context) (i : NodeId) (n : Node) : Context := (a.enterNode c i n).1.1

/-- Where a node is placed that is entered from a context. -/
abbrev placed (a : Arena) (c : Context) (i : NodeId) (n : Node) : Placement :=
  (a.inside c i n).placement (a.enterNode c i n).1.2

theorem onlyAt_placeNode : OnlyAt (· = i) a (a.placeNode c i n) := by
  obtain ⟨scopes, he⟩ := a.enterNode_eq c i n
  have hb : a.placeNode c i n =
      { a with scopes, placements := a.placements.setIfInBounds i (a.placed c i n) } := by
    rw [placeNode]
    simp only [he]
  rw [hb]
  refine ⟨rfl, Array.size_setIfInBounds, ?_⟩
  intro j hj
  exact Array.getElem?_setIfInBounds_ne (Ne.symm hj)

theorem placement?_placeNode (hi : i < a.placements.size) :
    (a.placeNode c i n).placement? i = some (a.placed c i n) := by
  obtain ⟨scopes, he⟩ := a.enterNode_eq c i n
  rw [placement?, placeNode]
  simp only [he]
  rw [Array.getElem?_setIfInBounds_self_of_lt hi]

/-! ## Trees -/

/-- Places the trees under nodes one after the other. -/
def placeAll (depth : Nat) (c : Context) (ids : List NodeId) (a : Arena) : Arena :=
  ids.foldl (fun a i => place depth c i a) a

theorem place_succ (hn : a.node? i = some n) :
    place (depth + 1) c i a = placeAll depth (a.inside c i n) n.children (a.placeNode c i n) := by
  rw [place, hn]
  rfl

theorem onlyAt_placeAll (h : ∀ c i a, OnlyAt (a.Reaches i) a (place depth c i a))
    (ids : List NodeId) (c : Context) (a : Arena) :
    OnlyAt (fun j => ∃ i ∈ ids, a.Reaches i j) a (placeAll depth c ids a) := by
  induction ids generalizing a with
  | nil => exact .refl _ a
  | cons i ids ih =>
    have hi : OnlyAt (a.Reaches i) a (place depth c i a) := h c i a
    have hids := ih (place depth c i a)
    rw [reaches_congr hi.nodes] at hids
    apply OnlyAt.trans
    · exact hi.mono fun j hj => ⟨i, List.mem_cons_self, hj⟩
    · exact hids.mono fun j ⟨k, hk, hj⟩ => ⟨k, List.mem_cons_of_mem i hk, hj⟩

theorem onlyAt_place (depth : Nat) (c : Context) (i : NodeId) (a : Arena) :
    OnlyAt (a.Reaches i) a (place depth c i a) := by
  induction depth generalizing c i a with
  | zero => exact .refl _ a
  | succ depth ih =>
    cases hn : a.node? i with
    | none =>
      rw [place, hn]
      exact .refl _ a
    | some n =>
      have hi : OnlyAt (· = i) a (a.placeNode c i n) := onlyAt_placeNode
      have hids := onlyAt_placeAll ih n.children (a.inside c i n) (a.placeNode c i n)
      rw [reaches_congr hi.nodes] at hids
      rw [place_succ hn]
      apply OnlyAt.trans
      · exact hi.mono fun j hj => hj ▸ .refl
      · refine hids.mono fun j ⟨k, hk, hj⟩ => .head ?_ hj
        exact show k ∈ a.children i from children_of_node? hn ▸ hk

theorem grows_placeAll (h : ∀ c i a, Grows a (place depth c i a)) (ids : List NodeId) (c : Context)
    (a : Arena) : Grows a (placeAll depth c ids a) := by
  induction ids generalizing a with
  | nil => exact .of_eq rfl
  | cons i ids ih => exact (h c i a).trans (ih _)

theorem grows_place (depth : Nat) (c : Context) (i : NodeId) (a : Arena) :
    Grows a (place depth c i a) := by
  induction depth generalizing c i a with
  | zero => exact .of_eq rfl
  | succ depth ih =>
    cases hn : a.node? i with
    | none =>
      rw [place, hn]
      exact .of_eq rfl
    | some n =>
      have hi : Grows a (a.placeNode c i n) := (a.grows_enterNode c i n).trans (.of_eq rfl)
      rw [place_succ hn]
      exact hi.trans (grows_placeAll ih _ _ _)

/-- The tree under a node is placed as a walk from the context places it. Of the scopes that were
interned before the node only the indices are said. -/
inductive Placed (a : Arena) : Context → NodeId → Prop
  | enter {c : Context} {i : NodeId} {n : Node} (b : Arena) (hn : a.node? i = some n)
      (hb : b.nodes = a.nodes) (hs : Grows (b.enterNode c i n).2 a)
      (hp : a.placement? i = some (b.placed c i n))
      (hc : ∀ k ∈ a.children i, Placed a (b.inside c i n) k) : Placed a c i

theorem Placed.congr (h : a.Placed c i) (hn : b.nodes = a.nodes) (hs : Grows a b)
    (hp : ∀ j, a.Reaches i j → b.placement? j = a.placement? j) : b.Placed c i := by
  induction h with
  | enter a' hi ha hsi hpi _ ih =>
    refine .enter a' ((node?_congr hn).trans hi) (ha.trans hn.symm) (hsi.trans hs) ?_ ?_
    · exact (hp _ .refl).trans hpi
    · intro k hk
      rw [children_congr hn] at hk
      exact ih k hk fun j hj => hp j (.head hk hj)

theorem placed_placeAll
    (h : ∀ c i a, a.Forest → i < depth → i < a.size → Placed (place depth c i a) c i)
    {ids : List NodeId} (hf : a.Forest) (hlt : ∀ i ∈ ids, i < depth ∧ i < a.size)
    (hd : ids.Pairwise fun i j => ∀ k, a.Reaches i k → ¬a.Reaches j k) :
    ∀ i ∈ ids, Placed (placeAll depth c ids a) c i := by
  induction ids generalizing a with
  | nil => exact nofun
  | cons i ids ih =>
    obtain ⟨hi, hids⟩ := List.pairwise_cons.mp hd
    have ha : OnlyAt (a.Reaches i) a (place depth c i a) := onlyAt_place depth c i a
    have hr := reaches_congr ha.nodes
    have hrest : OnlyAt (fun k => ∃ j ∈ ids, a.Reaches j k) (place depth c i a)
        (placeAll depth c ids (place depth c i a)) :=
      hr ▸ onlyAt_placeAll (onlyAt_place depth) ids c (place depth c i a)
    intro j hj
    rcases List.mem_cons.mp hj with rfl | hj
    · obtain ⟨hjd, hjs⟩ := hlt j List.mem_cons_self
      have hgrows : Grows (place depth c j a) (placeAll depth c ids (place depth c j a)) :=
        grows_placeAll (grows_place depth) ids c _
      refine (h c j a hf hjd hjs).congr hrest.nodes hgrows fun k hk => hrest.frame k ?_
      rintro ⟨l, hl, hlk⟩
      exact hi l hl k (hr ▸ hk) hlk
    · refine ih (ha.forest hf) ?_ (hr ▸ hids) j hj
      intro k hk
      obtain ⟨hkd, hks⟩ := hlt k (List.mem_cons_of_mem i hk)
      exact ⟨hkd, by rwa [size, ha.nodes]⟩

theorem Forest.placed_place (hf : a.Forest) (hd : i < depth) (hi : i < a.size) :
    Placed (place depth c i a) c i := by
  induction depth generalizing c i a with
  | zero => exact absurd hd (Nat.not_lt_zero i)
  | succ depth ih =>
    obtain ⟨n, hn⟩ := exists_node? hi
    have ha : OnlyAt (· = i) a (a.placeNode c i n) := onlyAt_placeNode
    have hall := onlyAt_placeAll (onlyAt_place depth) n.children (a.inside c i n) (a.placeNode c i n)
    have hnodes := hall.nodes.trans ha.nodes
    have hcs : n.children = a.children i := (children_of_node? hn).symm
    rw [place_succ hn]
    have hgrows : Grows (a.enterNode c i n).2 (placeAll depth (a.inside c i n) n.children
        (a.placeNode c i n)) := by
      have hnode : Grows (a.enterNode c i n).2 (a.placeNode c i n) := .of_eq rfl
      exact hnode.trans (grows_placeAll (grows_place depth) _ _ _)
    refine .enter a ((node?_congr hnodes).trans hn) hnodes.symm hgrows ?_ ?_
    · rw [hall.frame i, placement?_placeNode (hf.placements ▸ hi)]
      rintro ⟨k, hk, hr⟩
      rw [reaches_congr ha.nodes] at hr
      exact absurd (hf.le_of_reaches hr) (not_le.mpr (hf.before i k (hcs ▸ hk)))
    · rw [children_congr hnodes, ← hcs]
      refine placed_placeAll (fun c k b hb hk hks => ih hb hk hks) (ha.forest hf) ?_ ?_
      · intro k hk
        have hki : k < i := hf.before i k (hcs ▸ hk)
        have hsize : (a.placeNode c i n).size = a.size := congrArg Array.size ha.nodes
        exact ⟨hki.trans_le (Nat.le_of_lt_succ hd), hsize ▸ hki.trans hi⟩
      · rw [hcs, reaches_congr ha.nodes]
        refine (hf.ordered i).imp_of_mem fun {k l} hk hl hkl m hm => ?_
        exact hf.not_reaches_both hk hl hkl.ne hm

/-! ## Decoration -/

/-- The context and the arena with which decoration starts, if there is a root or not. -/
def start (a : Arena) (root : Option NodeId) : Context × Arena :=
  a.undecorated.enterScope ((root.map (a.undecorated.regionScope · none)).getD {}) {}

theorem start_eq (a : Arena) (root : Option NodeId) :
    ∃ scopes, (a.start root).2 = { a.undecorated with scopes } := by
  obtain ⟨scopes, h⟩ :=
    a.undecorated.internScope_eq ((root.map (a.undecorated.regionScope · none)).getD {})
  exact ⟨scopes, h⟩

theorem onlyAt_start (p : NodeId → Prop) (a : Arena) (root : Option NodeId) :
    OnlyAt p a.undecorated (a.start root).2 := by
  obtain ⟨scopes, h⟩ := a.start_eq root
  exact h ▸ ⟨rfl, rfl, fun _ _ => rfl⟩

theorem nodes_start (a : Arena) (root : Option NodeId) : (a.start root).2.nodes = a.nodes :=
  (onlyAt_start (fun _ => False) a root).nodes

theorem onlyAt_decorate (a : Arena) (root : Option NodeId) :
    OnlyAt (fun i => ∃ r ∈ root, a.Reaches r i) a.undecorated (a.decorate root) := by
  cases root with
  | none => exact onlyAt_start _ a none
  | some r =>
    have hplace : OnlyAt ((a.start (some r)).2.Reaches r) (a.start (some r)).2
        (a.decorate (some r)) := onlyAt_place ..
    rw [reaches_congr (a.nodes_start (some r))] at hplace
    exact (onlyAt_start _ a (some r)).trans (hplace.mono fun j hj => ⟨r, rfl, hj⟩)

theorem nodes_decorate (a : Arena) (root : NodeId) : (a.decorate (some root)).nodes = a.nodes :=
  (a.onlyAt_decorate (some root)).nodes

/-- An earlier decoration makes no difference. -/
theorem undecorated_decorate (a : Arena) (root : Option NodeId) :
    (a.decorate root).undecorated = a.undecorated := by
  rw [(a.onlyAt_decorate root).undecorated, undecorated, Array.map_const', undecorated,
    Array.map_const', Array.size_replicate]

theorem decorate_decorate (a : Arena) (root other : Option NodeId) :
    (a.decorate other).decorate root = a.decorate root := by
  rw [decorate.eq_def (a.decorate other), undecorated_decorate]
  rfl

/-- The context and the arena with which decoration starts. -/
def opened (a : Arena) (root : NodeId) : Context × Arena :=
  a.undecorated.enterScope (a.undecorated.regionScope root none) {}

theorem opened_eq (a : Arena) (root : NodeId) :
    ∃ scopes, (a.opened root).2 = { a.undecorated with scopes } :=
  a.start_eq (some root)

theorem nodes_opened (a : Arena) (root : NodeId) : (a.opened root).2.nodes = a.nodes :=
  a.nodes_start (some root)

theorem Forest.opened (hf : a.Forest) (root : NodeId) : (a.opened root).2.Forest := by
  obtain ⟨scopes, h⟩ := a.opened_eq root
  rw [h]
  exact ⟨Array.size_map.trans hf.placements, hf.ordered, hf.before, hf.parent⟩

theorem Forest.decorate (hf : a.Forest) (root : NodeId) : (a.decorate (some root)).Forest :=
  (onlyAt_place _ _ root _).forest (hf.opened root)

theorem Forest.placed_decorate (hf : a.Forest) {root : NodeId} (hr : root < a.size) :
    Placed (a.decorate (some root)) (a.opened root).1 root := by
  refine (hf.opened root).placed_place hr ?_
  rwa [size, nodes_opened]

end PhpAtlas.Arena
