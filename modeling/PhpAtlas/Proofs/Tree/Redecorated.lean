import PhpAtlas.Proofs.Tree.Detached
import PhpAtlas.Proofs.Tree.Placed

/-! # Decorating anew

Decoration starts by dropping what the arena held about its nodes, so that the
result depends on nothing but the nodes and the root. In an acyclic arena it
is the result of a walk to whatever depth the children go: no branch is deeper
than the number of nodes. Trees may share nodes.
-/

namespace PhpAtlas.Arena

variable {a b d : Arena} {c : Context} {i j : NodeId} {ids path : List NodeId} {n : Node}
variable {depth : Nat}

/-! ## Acyclic arenas -/

/-- No node is under itself. -/
def Acyclic (a : Arena) : Prop := ∀ i, ¬Relation.TransGen a.IsChild i i

/-- Children of lower rank leave no cycle. -/
theorem acyclic_of_rank (rank : NodeId → Nat) (h : ∀ i, ∀ k ∈ a.children i, rank k < rank i) :
    a.Acyclic := by
  have hlt {i j : NodeId} (hij : Relation.TransGen a.IsChild i j) : rank j < rank i := by
    induction hij with
    | single hk => exact h _ _ hk
    | tail _ hk ih => exact (h _ _ hk).trans ih
  exact fun i hi => lt_irrefl _ (hlt hi)

theorem Forest.acyclic (h : a.Forest) : a.Acyclic := acyclic_of_rank id h.before

/-- A detached tree has its nodes in preorder, but below each other as before. -/
theorem Forest.acyclic_detach (h : a.Forest) {root : NodeId} (hr : root < a.size) :
    (a.detach root).Acyclic := by
  refine acyclic_of_rank (fun i => ((a.descendants root)[i]?).getD 0) fun i k hk => ?_
  have hi : i < (a.descendants root).length :=
    h.size_detach hr ▸ lt_size_of_mem_children hk
  obtain ⟨x, hx, rfl⟩ : ∃ x ∈ a.descendants root, (a.descendants root).idxOf x = i :=
    ⟨_, List.getElem_mem hi, (h.nodup_descendants hr).idxOf_getElem i hi⟩
  rw [h.children_detach hr hx] at hk
  obtain ⟨y, hy, rfl⟩ := List.mem_map.mp hk
  rw [List.getElem?_idxOf hx, List.getElem?_idxOf (h.mem_descendants_of_child hr hx hy)]
  exact h.before x y hy

/-- Nodes each under the next. -/
def Branch (a : Arena) : List NodeId → Prop := List.Pairwise fun i j => Relation.TransGen a.IsChild j i

theorem Branch.below (h : a.Branch (i :: path)) (hc : j ∈ a.children i) :
    a.Branch (j :: i :: path) := by
  refine List.pairwise_cons.mpr ⟨fun k hk => ?_, h⟩
  rcases List.mem_cons.mp hk with rfl | hk
  · exact .single hc
  · exact .tail ((List.pairwise_cons.mp h).1 k hk) hc

theorem Branch.lt_size (h : a.Branch (i :: path)) (hi : i < a.size) : ∀ j ∈ i :: path, j < a.size := by
  intro j hj
  rcases List.mem_cons.mp hj with rfl | hj
  · exact hi
  · obtain ⟨k, hk, -⟩ := Relation.TransGen.head'_iff.mp ((List.pairwise_cons.mp h).1 j hj)
    exact lt_size_of_mem_children hk

/-- A branch passes no node twice. -/
theorem Acyclic.length_branch_le (h : a.Acyclic) (hb : a.Branch (i :: path)) (hi : i < a.size) :
    (i :: path).length ≤ a.size := by
  have hnodup : (i :: path).Nodup := by
    refine List.Pairwise.imp ?_ hb
    rintro j _ hj rfl
    exact h j hj
  have hsub : i :: path ⊆ List.range a.size := fun j hj =>
    List.mem_range.mpr (hb.lt_size hi j hj)
  exact (hnodup.subperm hsub).length_le.trans_eq List.length_range

/-! ## The walk -/

/-- The trees under nodes are placed one after the other, to whatever depth they have. -/
inductive Places : Context → List NodeId → Arena → Arena → Prop
  | nil {c : Context} {a : Arena} : Places c [] a a
  | missing {c : Context} {i : NodeId} {ids : List NodeId} {a b : Arena} (hn : a.node? i = none)
      (hids : Places c ids a b) : Places c (i :: ids) a b
  | node {c : Context} {i : NodeId} {ids : List NodeId} {a b d : Arena} {n : Node}
      (hn : a.node? i = some n) (hc : Places (a.inside c i n) n.children (a.placeNode c i n) b)
      (hids : Places c ids b d) : Places c (i :: ids) a d

namespace Places

theorem unique (h : Places c ids a b) (h' : Places c ids a d) : b = d := by
  induction h generalizing d with
  | nil =>
    cases h'
    rfl
  | missing hn _ ih =>
    cases h' with
    | missing _ hids => exact ih hids
    | node hn' _ _ => cases hn.symm.trans hn'
  | node hn _ _ ihc ih =>
    cases h' with
    | missing hn' _ => cases hn.symm.trans hn'
    | node hn' hc hids =>
      obtain rfl := Option.some.inj (hn.symm.trans hn')
      obtain rfl := ihc hc
      exact ih hids

theorem cons (hi : Places c [i] a b) (hids : Places c ids b d) : Places c (i :: ids) a d := by
  cases hi with
  | missing hn h =>
    cases h
    exact .missing hn hids
  | node hn hc h =>
    cases h
    exact .node hn hc hids

end Places

theorem places_placeAll (hb : b.nodes = a.nodes)
    (h : ∀ i ∈ ids, ∀ b : Arena, b.nodes = a.nodes → Places c [i] b (place depth c i b)) :
    Places c ids b (placeAll depth c ids b) := by
  induction ids generalizing b with
  | nil => exact .nil
  | cons i ids ih =>
    have hi := h i List.mem_cons_self b hb
    refine hi.cons (ih ((onlyAt_place depth c i b).nodes.trans hb) ?_)
    exact fun j hj => h j (List.mem_cons_of_mem i hj)

theorem place_of_missing (hn : a.node? i = none) : place depth c i a = a := by
  cases depth with
  | zero => rfl
  | succ depth => rw [place, hn]

/-- The depth that is left and the nodes above are no fewer than all nodes, so that the depth does
not run out before the branch ends. -/
theorem Acyclic.places_place (h : a.Acyclic) (hb : b.nodes = a.nodes) (hp : a.Branch (i :: path))
    (hd : a.size ≤ depth + path.length) : Places c [i] b (place depth c i b) := by
  induction depth generalizing c i path b with
  | zero =>
    cases hn : b.node? i with
    | none => exact .missing hn .nil
    | some n =>
      have hi : i < a.size := by
        by_contra hi
        rw [node?_congr hb, node?_eq_none_iff.mpr (not_lt.mp hi)] at hn
        cases hn
      have hle := h.length_branch_le hp hi
      rw [List.length_cons] at hle
      omega
  | succ depth ih =>
    cases hn : b.node? i with
    | none =>
      rw [place_of_missing hn]
      exact .missing hn .nil
    | some n =>
      have hi : OnlyAt (· = i) b (b.placeNode c i n) := onlyAt_placeNode
      rw [place_succ hn]
      refine .node hn (places_placeAll (hi.nodes.trans hb) fun k hk d hd => ?_) .nil
      have hc : k ∈ a.children i := children_of_node? ((node?_congr hb).symm.trans hn) ▸ hk
      refine ih hd (hp.below hc) ?_
      rw [List.length_cons]
      omega

/-! ## Decoration -/

/-- The arena of nodes about which nothing is known. -/
def plain (nodes : Array Node) : Arena := ⟨nodes, .replicate nodes.size {}, #[]⟩

theorem undecorated_eq (h : a.placements.size = a.nodes.size) : a.undecorated = plain a.nodes := by
  have hp : (a.placements.map fun _ => ({} : Placement)) = .replicate a.nodes.size {} := by
    rw [Array.map_const', h]
  rw [undecorated, plain, hp]

theorem placement?_undecorated (hi : i < a.placements.size) :
    a.undecorated.placement? i = some {} := by
  rw [placement?, undecorated, Array.getElem?_map, Array.getElem?_eq_getElem hi, Option.map_some]

theorem decorate_eq_plain (h : a.placements.size = a.nodes.size) (root : Option NodeId) :
    a.decorate root = (plain a.nodes).decorate root := by
  have hp : (plain a.nodes).undecorated = plain a.nodes :=
    undecorated_eq (Array.size_replicate ..)
  rw [decorate, decorate, undecorated_eq h, hp]

theorem Acyclic.places_decorate (h : a.Acyclic) (root : Option NodeId) :
    Places (a.start root).1 root.toList (a.start root).2 (a.decorate root) := by
  cases root with
  | none => exact .nil
  | some i =>
    have hb : a.Branch [i] := List.pairwise_singleton ..
    exact h.places_place (a.nodes_start (some i)) hb le_rfl

/-- Decoration forgets the past: it keeps the nodes, and what it says about them is what the walk
from the root says that starts with nothing known. So arenas with the same nodes are decorated
alike, whether or not they were decorated before, and nodes that are not under the root are left
without a place. -/
theorem decorate_anew (h : a.Acyclic) (hp : a.placements.size = a.nodes.size)
    (root : Option NodeId) :
    (a.decorate root).nodes = a.nodes ∧
    (∀ b : Arena, b.nodes = a.nodes → b.placements.size = b.nodes.size →
      b.decorate root = a.decorate root) ∧
    (∀ other, (a.decorate other).decorate root = a.decorate root) ∧
    (∀ b, Places ((plain a.nodes).start root).1 root.toList ((plain a.nodes).start root).2 b ↔
      b = a.decorate root) ∧
    ∀ i < a.size, (∀ r ∈ root, ¬a.Reaches r i) → (a.decorate root).placement? i = some {} := by
  have hother (b : Arena) (hn : b.nodes = a.nodes) (hb : b.placements.size = b.nodes.size) :
      b.decorate root = a.decorate root := by
    rw [decorate_eq_plain hb, decorate_eq_plain hp, hn]
  have honly := a.onlyAt_decorate root
  refine ⟨honly.nodes, hother, a.decorate_decorate root, fun b => ?_, fun i hi hr => ?_⟩
  · have hplain : (plain a.nodes).Acyclic := h
    have hwalk := hplain.places_decorate root
    rw [decorate_eq_plain hp]
    exact ⟨fun hb => hb.unique hwalk, fun hb => hb ▸ hwalk⟩
  · rw [honly.frame i fun ⟨r, hm, hri⟩ => hr r hm hri]
    exact placement?_undecorated (hp ▸ hi)

theorem decorate_anew_detached :
    let a : Arena :=
      { nodes := #[⟨.classLike .ordinary ⟨some 1, {}, [], [], [], none⟩, 6, 15, none⟩,
          ⟨.identifier "C", 12, 13, some 0⟩]
        placements := #[{ scope := some 1, fullName := some "Old\\C" }, { classLike := some 0 }]
        scopes := #[{}, { namespaceName := some "Old" }] }
    a.Acyclic ∧ a.placements.size = a.nodes.size ∧
    (a.decorate (some 1)).decorate (some 0) = a.decorate (some 0) := by
  intro a
  have hrank : ∀ i, ∀ k ∈ a.children i, 2 - k < 2 - i := by
    intro i k hk
    have hi : i < 2 := lt_size_of_mem_children hk
    have hall : ∀ i < 2, ∀ k ∈ a.children i, 2 - k < 2 - i := by decide
    exact hall i hi k hk
  have h := acyclic_of_rank (2 - ·) hrank
  exact ⟨h, rfl, (decorate_anew h rfl (some 0)).2.2.1 (some 1)⟩

end PhpAtlas.Arena
