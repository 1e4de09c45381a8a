import Mathlib.Data.List.Nodup
import Mathlib.Data.List.Perm.Subperm
import Mathlib.Logic.Relation
import PhpAtlas.Tree.Search
import PhpAtlas.Proofs.Tree.Forest

/-! # Walks over a forest

In a forest every node is in one tree and at one place of it. A walk with a
stack is the preorder of its trees, which visits what can be reached once, and
no child before its parent.
-/

namespace PhpAtlas.Arena

variable {a : Arena} {i j k c d : NodeId}

def IsChild (a : Arena) (i c : NodeId) : Prop := c ∈ a.children i

/-- Down from a node through children. -/
def Reaches (a : Arena) : NodeId → NodeId → Prop := Relation.ReflTransGen a.IsChild

theorem Forest.parent_unique (h : a.Forest) (hi : c ∈ a.children i) (hj : c ∈ a.children j) :
    i = j :=
  Option.some.inj (((h.parent c i).mpr hi).symm.trans ((h.parent c j).mpr hj))

theorem Forest.le_of_reaches (h : a.Forest) (hr : a.Reaches i j) : j ≤ i := by
  induction hr with
  | refl => exact le_rfl
  | tail _ hc ih => exact (h.before _ _ hc).le.trans ih

/-- Of two nodes above a third one, one is above the other. -/
theorem Forest.reaches_total (h : a.Forest) (hi : a.Reaches i k) (hj : a.Reaches j k) :
    a.Reaches i j ∨ a.Reaches j i := by
  have hu : Relator.RightUnique (Function.swap a.IsChild) := fun _ _ _ hb hc => h.parent_unique hb hc
  have hi' := Relation.reflTransGen_swap.mpr hi
  have hj' := Relation.reflTransGen_swap.mpr hj
  rcases hi'.total_of_right_unique hu hj' with hr | hr
  · exact .inr (Relation.reflTransGen_swap.mp hr)
  · exact .inl (Relation.reflTransGen_swap.mp hr)

theorem Forest.not_reaches_sibling (h : a.Forest) (hc : c ∈ a.children i) (hd : d ∈ a.children i)
    (hne : c ≠ d) : ¬a.Reaches c d := by
  intro hr
  rcases Relation.ReflTransGen.cases_tail hr with rfl | ⟨p, hp, hpd⟩
  · exact hne rfl
  · obtain rfl := h.parent_unique hd hpd
    exact absurd (h.le_of_reaches hp) (not_le.mpr (h.before _ _ hc))

/-- The trees under two children of a node have no node in common. -/
theorem Forest.not_reaches_both (h : a.Forest) (hc : c ∈ a.children i) (hd : d ∈ a.children i)
    (hne : c ≠ d) (hj : a.Reaches c j) : ¬a.Reaches d j := by
  intro hj'
  rcases h.reaches_total hj hj' with hr | hr
  · exact h.not_reaches_sibling hc hd hne hr
  · exact h.not_reaches_sibling hd hc hne.symm hr

/-! ## Preorder -/

/-- The preorder of the tree under a node, which is no deeper than the node's index. -/
def treeOrder (a : Arena) (i : NodeId) : List NodeId := a.preorder (i + 1) i

theorem Forest.preorder_eq (h : a.Forest) {depth : Nat} (hd : i < depth) :
    a.preorder depth i = a.treeOrder i := by
  induction i using Nat.strong_induction_on generalizing depth with
  | _ i ih =>
    obtain ⟨depth, rfl⟩ := Nat.exists_eq_add_one_of_ne_zero (Nat.ne_zero_of_lt hd)
    rw [treeOrder, preorder, preorder]
    cases hn : a.node? i with
    | none => rfl
    | some n =>
      have hc (c : NodeId) (hc : c ∈ n.children) : c < i :=
        h.before i c (children_of_node? hn ▸ hc)
      refine congrArg (i :: ·) (List.flatMap_congr fun c hm => ?_)
      rw [ih c (hc c hm) ((hc c hm).trans_le (Nat.le_of_lt_succ hd)), ih c (hc c hm) (hc c hm)]

theorem Forest.treeOrder_eq (h : a.Forest) (hi : i < a.size) :
    a.treeOrder i = i :: (a.children i).flatMap a.treeOrder := by
  obtain ⟨n, hn⟩ := exists_node? hi
  rw [treeOrder, preorder, hn, children_of_node? hn]
  refine congrArg (i :: ·) (List.flatMap_congr fun c hm => ?_)
  exact h.preorder_eq (h.before i c (children_of_node? hn ▸ hm))

theorem Forest.lt_size_of_child (h : a.Forest) (hc : c ∈ a.children i) : c < a.size :=
  (h.before i c hc).trans (lt_size_of_mem_children hc)

theorem Forest.mem_treeOrder (h : a.Forest) (hi : i < a.size) :
    j ∈ a.treeOrder i ↔ a.Reaches i j := by
  induction i using Nat.strong_induction_on with
  | _ i ih =>
    rw [h.treeOrder_eq hi, List.mem_cons, List.mem_flatMap]
    constructor
    · rintro (rfl | ⟨c, hc, hj⟩)
      · exact .refl
      · exact .head hc ((ih c (h.before i c hc) (h.lt_size_of_child hc)).mp hj)
    · intro hr
      rcases Relation.ReflTransGen.cases_head hr with rfl | ⟨c, hc, hj⟩
      · exact .inl rfl
      · exact .inr ⟨c, hc, (ih c (h.before i c hc) (h.lt_size_of_child hc)).mpr hj⟩

theorem Forest.le_of_mem_treeOrder (h : a.Forest) (hi : i < a.size) (hj : j ∈ a.treeOrder i) :
    j ≤ i :=
  h.le_of_reaches ((h.mem_treeOrder hi).mp hj)

theorem Forest.lt_of_mem_flatMap (h : a.Forest) (hj : j ∈ (a.children i).flatMap a.treeOrder) :
    j < i := by
  obtain ⟨c, hc, hm⟩ := List.mem_flatMap.mp hj
  exact (h.le_of_mem_treeOrder (h.lt_size_of_child hc) hm).trans_lt (h.before i c hc)

theorem Forest.nodup_treeOrder (h : a.Forest) (hi : i < a.size) : (a.treeOrder i).Nodup := by
  induction i using Nat.strong_induction_on with
  | _ i ih =>
    rw [h.treeOrder_eq hi]
    refine List.nodup_cons.mpr ⟨fun hm => lt_irrefl _ (h.lt_of_mem_flatMap hm), ?_⟩
    refine List.nodup_flatMap.mpr ⟨fun c hc => ih c (h.before i c hc) (h.lt_size_of_child hc), ?_⟩
    refine (h.ordered i).imp_of_mem fun {c d} hc hd hlt j hjc hjd => ?_
    have hrc := (h.mem_treeOrder (h.lt_size_of_child hc)).mp hjc
    have hrd := (h.mem_treeOrder (h.lt_size_of_child hd)).mp hjd
    exact h.not_reaches_both hc hd hlt.ne hrc hrd

/-- No child stands before its parent. -/
theorem Forest.pairwise_treeOrder (h : a.Forest) (hi : i < a.size) :
    (a.treeOrder i).Pairwise fun x y => x ∉ a.children y := by
  induction i using Nat.strong_induction_on with
  | _ i ih =>
    rw [h.treeOrder_eq hi]
    refine List.pairwise_cons.mpr ⟨fun y hy hc => ?_, ?_⟩
    · exact lt_asymm (h.lt_of_mem_flatMap hy) (h.before y i hc)
    · refine List.pairwise_flatMap.mpr
        ⟨fun c hc => ih c (h.before i c hc) (h.lt_size_of_child hc), ?_⟩
      refine (h.ordered i).imp_of_mem fun {c d} hc hd hlt x hx y hy hxy => ?_
      have hrc := (h.mem_treeOrder (h.lt_size_of_child hc)).mp hx
      have hrd := (h.mem_treeOrder (h.lt_size_of_child hd)).mp hy
      exact h.not_reaches_both hc hd hlt.ne hrc (hrd.tail hxy)

/-! ## Walks with a stack -/

theorem treeOrder_of_absent (h : a.node? i = none) : a.treeOrder i = [] := by
  rw [treeOrder, preorder, h]

theorem Forest.length_treeOrder_le (h : a.Forest) (i : NodeId) :
    (a.treeOrder i).length ≤ a.size := by
  rcases lt_or_ge i a.size with hi | hi
  · have hsub : a.treeOrder i ⊆ List.range a.size := fun j hj =>
      List.mem_range.mpr ((h.le_of_mem_treeOrder hi hj).trans_lt hi)
    exact ((h.nodup_treeOrder hi).subperm hsub).length_le.trans_eq List.length_range
  · rw [treeOrder_of_absent (node?_eq_none_iff.mpr hi)]
    exact Nat.zero_le _

/-- The steps that a walk takes: one for each node of the trees under the stacked indices, and one for
each index without a node. -/
def steps (a : Arena) (stack : List NodeId) : Nat :=
  (stack.flatMap a.treeOrder).length + stack.countP fun i => (a.node? i).isNone

theorem Forest.steps_le (h : a.Forest) (stack : List NodeId) :
    a.steps stack ≤ stack.length * (a.size + 1) := by
  induction stack with
  | nil => simp [steps]
  | cons i stack ih =>
    have hone : (a.treeOrder i).length ≤ a.size := h.length_treeOrder_le i
    rw [steps] at ih ⊢
    rw [List.flatMap_cons, List.length_append, List.countP_cons, List.length_cons,
      Nat.succ_mul]
    split
    · omega
    · omega

theorem Forest.walk_eq (h : a.Forest) {fuel : Nat} {stack : List NodeId}
    (hf : a.steps stack ≤ fuel) : a.walk fuel stack = stack.flatMap a.treeOrder := by
  induction fuel generalizing stack with
  | zero =>
    have h0 : (stack.flatMap a.treeOrder).length = 0 := by
      rw [steps] at hf
      omega
    rw [List.length_eq_zero_iff.mp h0]
    rfl
  | succ fuel ih =>
    cases stack with
    | nil => rfl
    | cons i stack =>
      rw [walk]
      cases hn : a.node? i with
      | none =>
        rw [List.flatMap_cons, treeOrder_of_absent hn, List.nil_append]
        apply ih
        rw [steps, List.flatMap_cons, treeOrder_of_absent hn, List.countP_cons, hn] at hf
        simpa [steps, ← Nat.add_assoc] using hf
      | some n =>
        have hi : i < a.size := lt_of_not_ge fun hi => by simp [node?_eq_none_iff.mpr hi] at hn
        have hchildren : n.children.countP (fun c => (a.node? c).isNone) = 0 := by
          refine List.countP_eq_zero.mpr fun c hc => ?_
          obtain ⟨m, hm⟩ := exists_node? (h.lt_size_of_child (children_of_node? hn ▸ hc :
            c ∈ a.children i))
          simp [hm]
        have hstep : (i :: stack).flatMap a.treeOrder =
            i :: (n.children ++ stack).flatMap a.treeOrder := by
          rw [List.flatMap_cons, h.treeOrder_eq hi, children_of_node? hn, List.flatMap_append]
          rfl
        rw [hstep]
        refine congrArg (i :: ·) (ih ?_)
        rw [steps, hstep, List.countP_cons, hn] at hf
        rw [steps, List.countP_append, hchildren]
        simp only [List.length_cons, Option.isNone_some, Bool.false_eq_true, if_false] at hf
        omega

theorem Forest.descendants_eq (h : a.Forest) (i : NodeId) : a.descendants i = a.treeOrder i := by
  have hw : a.walk (a.size + 1) [i] = [i].flatMap a.treeOrder := by
    refine h.walk_eq ?_
    simpa using h.steps_le [i]
  simpa [descendants] using hw

/-- A search finds what is under the stacked nodes. -/
theorem mem_searchAll {p : NodeId → Node → Bool} {fuel : Nat} {stack : List NodeId}
    (hj : j ∈ a.searchAll p fuel stack) :
    (∃ i ∈ stack, a.Reaches i j) ∧ ∃ n, a.node? j = some n ∧ p j n = true := by
  induction fuel generalizing stack with
  | zero => cases hj
  | succ fuel ih =>
    cases stack with
    | nil => cases hj
    | cons i stack =>
      rw [searchAll] at hj
      cases hn : a.node? i with
      | none =>
        rw [hn] at hj
        obtain ⟨⟨k, hk, hr⟩, hp⟩ := ih hj
        exact ⟨⟨k, List.mem_cons_of_mem i hk, hr⟩, hp⟩
      | some n =>
        have hrest (hj : j ∈ a.searchAll p fuel (n.children ++ stack)) :
            (∃ k ∈ i :: stack, a.Reaches k j) ∧ ∃ n, a.node? j = some n ∧ p j n = true := by
          obtain ⟨⟨k, hk, hr⟩, hp⟩ := ih hj
          refine ⟨?_, hp⟩
          rcases List.mem_append.mp hk with hk | hk
          · have hc : a.IsChild i k := show k ∈ a.children i from children_of_node? hn ▸ hk
            exact ⟨i, List.mem_cons_self, .head hc hr⟩
          · exact ⟨k, List.mem_cons_of_mem i hk, hr⟩
        simp only [hn] at hj
        split at hj
        · next hp =>
          rcases List.mem_cons.mp hj with rfl | hj
          · exact ⟨⟨j, List.mem_cons_self, .refl⟩, n, hn, hp⟩
          · exact hrest hj
        · exact hrest hj

theorem mem_allWithin {p : NodeId → Node → Bool} (hj : j ∈ a.allWithin i p) :
    a.Reaches i j ∧ ∃ n, a.node? j = some n ∧ p j n = true := by
  obtain ⟨⟨k, hk, hr⟩, hp⟩ := mem_searchAll hj
  obtain rfl := List.mem_singleton.mp hk
  exact ⟨hr, hp⟩

end PhpAtlas.Arena
