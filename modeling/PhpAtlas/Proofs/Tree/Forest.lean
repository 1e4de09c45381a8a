import Mathlib.Data.List.Pairwise
import Mathlib.Order.Basic
import Mathlib.Data.Nat.Basic
import PhpAtlas.Tree.Arena

/-! # Arenas are forests

Every child stands before its parent, and the links between a node and its
children agree. Adding a node above nodes that have no parent keeps this up.
-/

namespace PhpAtlas.Arena

variable {a : Arena} {i j c p start stop : Nat} {payload : Payload (Option NodeId)}

def parent? (a : Arena) (i : NodeId) : Option NodeId := (a.node? i).bind Node.parent

structure Forest (a : Arena) : Prop where
  placements : a.placements.size = a.size
  ordered : ∀ i, (a.children i).Pairwise (· < ·)
  before : ∀ i, ∀ c ∈ a.children i, c < i
  parent : ∀ c p, a.parent? c = some p ↔ c ∈ a.children p

theorem node?_eq_none_iff : a.node? i = none ↔ a.size ≤ i := Array.getElem?_eq_none_iff

theorem exists_node? (h : i < a.size) : ∃ n, a.node? i = some n :=
  ⟨a.nodes[i], Array.getElem?_eq_getElem h⟩

theorem parent?_of_size_le (h : a.size ≤ i) : a.parent? i = none := by
  rw [parent?, node?_eq_none_iff.mpr h]
  rfl

theorem children_of_node? {n : Node} (h : a.node? i = some n) : a.children i = n.children := by
  rw [children, h]
  rfl

theorem payload?_of_node? {n : Node} (h : a.node? i = some n) : a.payload? i = some n.payload :=
  congrArg (Option.map Node.payload) h

theorem lt_size_of_payload? (h : a.payload? i = some payload) : i < a.size := by
  by_contra hi
  rw [payload?, node?_eq_none_iff.mpr (not_lt.mp hi)] at h
  cases h

theorem lt_size_of_mem_children (h : c ∈ a.children i) : i < a.size := by
  by_contra hi
  rw [children, node?_eq_none_iff.mpr (not_lt.mp hi)] at h
  cases h

theorem forest_empty : Forest {} where
  placements := rfl
  ordered i := by simp [children, node?]
  before i c h := by simp [children, node?] at h
  parent c p := by simp [parent?, children, node?]

/-! ## Adding a node -/

theorem getElem?_foldl_setParent (cs : List NodeId) (nodes : Array Node) :
    (cs.foldl (setParent p) nodes)[i]? =
      nodes[i]?.map fun n => if i ∈ cs then { n with parent := some p } else n := by
  induction cs generalizing nodes with
  | nil => simp
  | cons c cs ih =>
    rw [List.foldl_cons, ih, setParent, Array.getElem?_modify]
    by_cases hc : c = i
    · subst hc
      cases nodes[c]? <;> simp
    · rw [if_neg hc]
      cases nodes[i]? with
      | none => rfl
      | some n => simp [Ne.symm hc]

theorem size_foldl_setParent (cs : List NodeId) (nodes : Array Node) :
    (cs.foldl (setParent p) nodes).size = nodes.size := by
  induction cs generalizing nodes with
  | nil => rfl
  | cons c cs ih => rw [List.foldl_cons, ih, setParent, Array.size_modify]

/-- The nodes that a construct has in its slots. -/
abbrev childrenOf (payload : Payload (Option NodeId)) : List NodeId := payload.slots.filterMap id

theorem children_of_payload? (h : a.payload? i = some payload) :
    a.children i = childrenOf payload := by
  obtain ⟨n, hn, rfl⟩ := Option.map_eq_some_iff.mp h
  exact children_of_node? hn

/-- The arena after a node has been added. -/
abbrev added (a : Arena) (payload : Payload (Option NodeId)) (start stop : Nat) : Arena :=
  (a.add payload start stop).2

@[simp] theorem size_added : (a.added payload start stop).size = a.size + 1 := by
  rw [size, added, add, size_foldl_setParent, Array.size_push]
  rfl

theorem node?_added :
    (a.added payload start stop).node? i =
      (if i = a.size then some ⟨payload, start, stop, none⟩ else a.node? i).map fun n =>
        if i ∈ childrenOf payload then { n with parent := some a.size } else n := by
  show (List.foldl (setParent a.size) _ _)[i]? = _
  rw [getElem?_foldl_setParent, Array.getElem?_push]
  rfl

theorem node?_added_of_lt (h : i < a.size) :
    (a.added payload start stop).node? i = (a.node? i).map fun n =>
      if i ∈ childrenOf payload then { n with parent := some a.size } else n := by
  rw [node?_added, if_neg (Nat.ne_of_lt h)]

theorem node?_added_size (h : a.size ∉ childrenOf payload) :
    (a.added payload start stop).node? a.size = some ⟨payload, start, stop, none⟩ := by
  rw [node?_added, if_pos rfl, Option.map_some, if_neg h]

/-- Whatever its slots are, the last node is the one that was added. -/
theorem exists_node?_added (a : Arena) (payload : Payload (Option NodeId)) (start stop : Nat) : ∃ q,
    (a.added payload start stop).node? a.size = some ⟨payload, start, stop, q⟩ := by
  rw [node?_added, if_pos rfl, Option.map_some]
  split
  · exact ⟨_, rfl⟩
  · exact ⟨none, rfl⟩

theorem parent?_added (h : ∀ c ∈ childrenOf payload, c < a.size) :
    (a.added payload start stop).parent? i =
      if i ∈ childrenOf payload then some a.size else a.parent? i := by
  rcases lt_trichotomy i a.size with hi | rfl | hi
  · obtain ⟨n, hn⟩ := exists_node? hi
    rw [parent?, node?_added_of_lt hi, parent?, hn, Option.map_some]
    split
    · rfl
    · rfl
  · have hm : a.size ∉ childrenOf payload := fun hm => lt_irrefl _ (h _ hm)
    rw [parent?, node?_added_size hm, if_neg hm, parent?_of_size_le le_rfl]
    rfl
  · have hm : i ∉ childrenOf payload := fun hm => lt_asymm hi (h _ hm)
    rw [parent?_of_size_le (size_added ▸ hi), if_neg hm, parent?_of_size_le hi.le]

theorem children_added :
    (a.added payload start stop).children i =
      if i = a.size then childrenOf payload else a.children i := by
  split
  · next h =>
    obtain ⟨q, hq⟩ := exists_node?_added a payload start stop
    rw [h]
    exact children_of_node? hq
  · next h =>
    rw [children, node?_added, if_neg h, children]
    cases a.node? i with
    | none => rfl
    | some n =>
      rw [Option.map_some]
      split
      · rfl
      · rfl

theorem payload?_added : (a.added payload start stop).payload? i =
    if i = a.size then some payload else a.payload? i := by
  have hp : (Node.payload ∘ fun n : Node =>
      if i ∈ childrenOf payload then { n with parent := some a.size } else n) = Node.payload := by
    funext n
    dsimp only [Function.comp_apply]
    split <;> rfl
  rw [payload?, node?_added, Option.map_map, hp, payload?]
  split <;> rfl

/-- What holds of the payloads before and of the new one holds of all. -/
theorem payload_added {P : Payload (Option NodeId) → Prop}
    (h : ∀ i n, a.node? i = some n → P n.payload) (hp : P payload) :
    ∀ i n, (a.added payload start stop).node? i = some n → P n.payload := by
  intro i n hn
  rw [node?_added] at hn
  obtain ⟨m, hm, rfl⟩ := Option.map_eq_some_iff.mp hn
  have hpm : P m.payload := by
    split at hm
    · cases hm
      exact hp
    · exact h i m hm
  split
  · exact hpm
  · exact hpm

/-- Nodes in order that have no parent yet. -/
structure Loose (a : Arena) (ids : List NodeId) : Prop where
  ordered : ids.Pairwise (· < ·)
  lt : ∀ i ∈ ids, i < a.size
  parentless : ∀ i ∈ ids, a.parent? i = none

theorem Loose.nil : a.Loose [] := ⟨.nil, nofun, nofun⟩

theorem Loose.sublist {ids ids' : List NodeId} (h : a.Loose ids) (hs : ids'.Sublist ids) :
    a.Loose ids' :=
  ⟨h.ordered.sublist hs, fun i hi => h.lt i (hs.subset hi), fun i hi => h.parentless i (hs.subset hi)⟩

/-- The new node takes the place of its children among the loose ones. -/
theorem Loose.add {ids : List NodeId} (h : a.Loose (ids ++ childrenOf payload)) :
    (a.added payload start stop).Loose (ids ++ [a.size]) := by
  have hlt : ∀ i ∈ ids, i < a.size := fun i hi => h.lt i (List.mem_append_left _ hi)
  have hnew : ∀ c ∈ childrenOf payload, c < a.size := fun c hc => h.lt c (List.mem_append_right _ hc)
  obtain ⟨hids, -, hsep⟩ := List.pairwise_append.mp h.ordered
  constructor
  · refine List.pairwise_append.mpr ⟨hids, List.pairwise_singleton _ _, ?_⟩
    rintro i hi j hj
    rw [List.mem_singleton.mp hj]
    exact hlt i hi
  · intro i hi
    rw [size_added]
    rcases List.mem_append.mp hi with hi | hi
    · exact (hlt i hi).trans (Nat.lt_succ_self _)
    · rw [List.mem_singleton.mp hi]
      exact Nat.lt_succ_self _
  · intro i hi
    rcases List.mem_append.mp hi with hi | hi
    · have hn : i ∉ childrenOf payload := fun hc => lt_irrefl _ (hsep i hi i hc)
      rw [parent?_added hnew, if_neg hn]
      exact h.parentless i (List.mem_append_left _ hi)
    · have hn : a.size ∉ childrenOf payload := fun hc => lt_irrefl _ (hnew _ hc)
      rw [List.mem_singleton.mp hi, parent?_added hnew, if_neg hn]
      exact parent?_of_size_le le_rfl

theorem Forest.add (h : a.Forest) (hl : a.Loose (childrenOf payload)) :
    (a.added payload start stop).Forest where
  placements := by
    rw [size_added, ← h.placements]
    exact Array.size_push _
  ordered i := by
    rw [children_added]
    split
    · exact hl.ordered
    · exact h.ordered i
  before i c hc := by
    rw [children_added] at hc
    split at hc
    · next hi => exact hi ▸ hl.lt c hc
    · exact h.before i c hc
  parent c p := by
    rw [parent?_added hl.lt, children_added]
    by_cases hc : c ∈ childrenOf payload
    · have hn : c ∉ a.children p := fun hm =>
        Option.some_ne_none p (((h.parent c p).mpr hm).symm.trans (hl.parentless c hc))
      rw [if_pos hc]
      split
      · next hp => simp [hp, hc]
      · next hp => simp [hn, Ne.symm hp]
    · rw [if_neg hc, h.parent]
      split
      · next hp => simpa [hc, hp] using fun hm => lt_irrefl _ (lt_size_of_mem_children hm)
      · exact Iff.rfl

end PhpAtlas.Arena
