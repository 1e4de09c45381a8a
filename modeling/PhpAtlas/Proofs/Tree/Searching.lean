import PhpAtlas.Proofs.Building.Sources

/-! # Searches agree

A search with a stack finds what a walk visits, whatever the arena is and
however many steps it has. In a forest there are enough steps for a walk
through all trees under the given indices, and this walk is the preorder.
-/

namespace PhpAtlas

namespace Arena

variable {a b : Arena} {i root : NodeId} {order : List NodeId} {p : NodeId → Node → Bool}

/-! ## Preorder -/

/-- The preorder of the tree under an index: the node, then the preorders of its children in order.
There is nothing under an index that has no node. -/
inductive InPreorder (a : Arena) : NodeId → List NodeId → Prop
  | absent {i : NodeId} (h : a.node? i = none) : InPreorder a i []
  | node {i : NodeId} {n : Node} {orders : List (List NodeId)} (h : a.node? i = some n)
      (hc : List.Forall₂ (InPreorder a) n.children orders) : InPreorder a i (i :: orders.flatten)

theorem treeOrder_of_node? (h : a.Forest) {n : Node} (hn : a.node? i = some n) :
    a.treeOrder i = i :: (n.children.map a.treeOrder).flatten := by
  have hi : i < a.size := by
    by_contra hi
    rw [node?_eq_none_iff.mpr (not_lt.mp hi)] at hn
    cases hn
  rw [h.treeOrder_eq hi, children_of_node? hn, List.flatMap_def]

theorem Forest.inPreorder (h : a.Forest) (i : NodeId) : a.InPreorder i (a.treeOrder i) := by
  induction i using Nat.strong_induction_on with
  | _ i ih =>
    cases hn : a.node? i with
    | none =>
      rw [treeOrder_of_absent hn]
      exact .absent hn
    | some n =>
      rw [treeOrder_of_node? h hn]
      refine .node hn (List.forall₂_map_right_iff.mpr (List.forall₂_same.mpr fun c hc => ?_))
      exact ih c (h.before i c (children_of_node? hn ▸ hc))

/-- Indices become smaller towards the leaves, so a tree has no other preorder. -/
theorem Forest.inPreorder_iff (h : a.Forest) : a.InPreorder i order ↔ order = a.treeOrder i := by
  refine ⟨fun ho => ?_, fun ho => ho ▸ h.inPreorder i⟩
  induction i using Nat.strong_induction_on generalizing order with
  | _ i ih =>
    cases ho with
    | absent hn => rw [treeOrder_of_absent hn]
    | @node _ n orders hn hc =>
      have hall : ∀ c ∈ n.children, ∀ o, a.InPreorder c o → o = a.treeOrder c :=
        fun c hcn o => ih c (h.before i c (children_of_node? hn ▸ hcn))
      rw [treeOrder_of_node? h hn]
      refine congrArg (fun orders => i :: List.flatten orders) ?_
      generalize n.children = children at hc hall
      induction hc with
      | nil => rfl
      | @cons c o _ _ hco _ ihc =>
        obtain ⟨hc, hall⟩ := List.forall_mem_cons.mp hall
        rw [List.map_cons, hc o hco, ihc hall]

/-! ## Searches -/

/-- Whether there is a node at the index for which `p` holds. -/
def satisfies (a : Arena) (p : NodeId → Node → Bool) (i : NodeId) : Bool := (a.node? i).any (p i)

/-- A search for all nodes visits what a walk of as many steps visits. -/
theorem searchAll_eq_filter (fuel : Nat) (stack : List NodeId) :
    a.searchAll p fuel stack = (a.walk fuel stack).filter (a.satisfies p) := by
  induction fuel generalizing stack with
  | zero => rfl
  | succ fuel ih =>
    cases stack with
    | nil => rfl
    | cons i stack =>
      rw [searchAll, walk]
      cases hn : a.node? i with
      | none => exact ih stack
      | some n =>
        have hp : a.satisfies p i = p i n := by rw [satisfies, hn, Option.any_some]
        dsimp only
        rw [List.filter_cons, hp, ih]

/-- A search for one node stops at the first one that a search for all nodes finds. -/
theorem searchFirst_eq_head? (fuel : Nat) (stack : List NodeId) :
    a.searchFirst p fuel stack = (a.searchAll p fuel stack).head? := by
  induction fuel generalizing stack with
  | zero => rfl
  | succ fuel ih =>
    cases stack with
    | nil => rfl
    | cons i stack =>
      rw [searchFirst, searchAll]
      cases a.node? i with
      | none => exact ih stack
      | some n =>
        dsimp only
        split
        · rfl
        · exact ih _

/-- For all roots and all predicates, what is found is what is under the roots in the order of a walk
through each of them, and a walk is in preorder. -/
structure SearchesAgree (a : Arena) : Prop where
  all : ∀ (roots : List NodeId) (p : NodeId → Node → Bool), a.allWithinAny roots p =
    roots.flatMap fun root => (a.descendants root).filter (a.satisfies p)
  first : ∀ (roots : List NodeId) (p : NodeId → Node → Bool),
    a.firstWithinAny? roots p = (a.allWithinAny roots p).head?
  descendants : ∀ root order, a.InPreorder root order ↔ order = a.descendants root

theorem Forest.searchesAgree (h : a.Forest) : a.SearchesAgree where
  all roots p := by
    have hwalk : a.walk (roots.length * (a.size + 1)) roots = roots.flatMap a.descendants := by
      rw [h.walk_eq (h.steps_le roots)]
      exact List.flatMap_congr fun i _ => (h.descendants_eq i).symm
    rw [allWithinAny, searchAll_eq_filter, hwalk, List.filter_flatMap]
  first roots p := searchFirst_eq_head? _ roots
  descendants root order := by rw [h.descendants_eq, h.inPreorder_iff]

end Arena

/-- In the tree of a source the two searches and the walk agree, whatever is wrong with the source, and
also when the tree is decorated. The roots may be any indices. -/
theorem Parsed.searches_agree (source : List Char) :
    (ofSource source).arena.SearchesAgree ∧ (ofSource source).decorated.arena.SearchesAgree := by
  obtain ⟨s, root, hs, -, he⟩ := sound_ofSource source
  rw [he]
  exact ⟨hs.forest.searchesAgree, (hs.forest.decorate root).searchesAgree⟩

end PhpAtlas
