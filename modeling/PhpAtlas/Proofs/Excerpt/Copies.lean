import PhpAtlas.Proofs.Excerpt.Functions
import PhpAtlas.Proofs.Tree.Detached

/-! # Copies of trees

Where the nodes of an excerpt are those of another tree, and nothing under its last
node is older, the tree under that node is a copy of the one in the other tree.
-/

namespace PhpAtlas

namespace Payload

variable {payload : Payload (Option NodeId)}

theorem slots_undocumented : payload.undocumented.slots = payload.slots := by
  cases payload <;> rfl

theorem childrenOf_map (number : NodeId → NodeId) :
    Arena.childrenOf (payload.map (Option.map number)) = (Arena.childrenOf payload).map number := by
  rw [Arena.childrenOf, slots_map, List.filterMap_map, List.map_filterMap]
  rfl

end Payload

namespace Arena

/-- The tree under `number i` in `b` is the one under `i` in `a`: what is at `origin` there is at
`target` here, nodes have other numbers, and `i` itself is not documented. -/
structure Restates (a b : Arena) (i : NodeId) (origin target : Nat) (number : NodeId → NodeId) :
    Prop where
  injective : ∀ x ∈ a.descendants i, ∀ y ∈ a.descendants i, number x = number y → x = y
  descendants : b.descendants (number i) = (a.descendants i).map number
  node : ∀ x ∈ a.descendants i, ∃ k k', a.node? x = some k ∧ b.node? (number x) = some k' ∧
    k'.payload = (if x = i then k.payload.undocumented else k.payload).map (Option.map number) ∧
    k'.start + origin = k.start + target ∧ k'.stop + origin = k.stop + target ∧
    (x ≠ i → k'.parent = k.parent.map number)

theorem span?_of_node? {a : Arena} {i : NodeId} {n : Node} (h : a.node? i = some n) :
    a.span? i = some n.span := by
  rw [span?, h, Option.map_some]

theorem exists_node?_of_span? {a : Arena} {i : NodeId} {payload : Payload (Option NodeId)} {p : Span}
    (h : a.payload? i = some payload) (hs : a.span? i = some p) :
    ∃ n, a.node? i = some n ∧ n.payload = payload ∧ n.span = p := by
  obtain ⟨n, hn, rfl⟩ := Option.map_eq_some_iff.mp h
  rw [span?_of_node? hn] at hs
  exact ⟨n, hn, rfl, Option.some.inj hs⟩

end Arena

namespace Grammar.Excerpt

open Arena

variable {X : Excerpt} {a b : Arena} {i j : NodeId} {payload : Payload (Option NodeId)}

namespace Copies

theorem payload_eq (h : X.Copies i a b) (hb : X.base ≤ j) (hj : j ≤ i)
    (hp : a.payload? j = some payload) : b.payload? (X.shift.number j) =
      some ((if j = i then payload.undocumented else payload).map X.shift.ids) := by
  rw [h.payload j hb hj, hp, Option.map_some]

theorem children_eq (h : X.Copies i a b) (hb : X.base ≤ j) (hj : j ≤ i) (hlt : j < a.size) :
    b.children (X.shift.number j) = (a.children j).map X.shift.number := by
  obtain ⟨n, hn⟩ := exists_node? hlt
  have hp := payload?_of_node? hn
  rw [children_of_payload? (h.payload_eq hb hj hp), children_of_payload? hp, Relocation.ids,
    Payload.childrenOf_map]
  split
  · rw [childrenOf, Payload.slots_undocumented]
  · rfl

variable (h : X.Copies i a b) (ha : a.Forest) (hb : b.Forest) (hi : i < a.size)
variable (hbase : ∀ j ∈ a.descendants i, X.base ≤ j)

include h ha hi hbase

theorem treeOrder_eq (hb : b.Forest) (hj : j ∈ a.descendants i) :
    b.treeOrder (X.shift.number j) = (a.treeOrder j).map X.shift.number := by
  induction j using Nat.strong_induction_on with
  | _ j ih =>
    have hlt := ha.lt_of_mem_descendants hi hj
    have hle := ha.le_of_reaches ((ha.mem_descendants hi).mp hj)
    obtain ⟨n, hn⟩ := exists_node? hlt
    have hlt' : X.shift.number j < b.size :=
      lt_size_of_payload? (h.payload_eq (hbase j hj) hle (payload?_of_node? hn))
    rw [ha.treeOrder_eq hlt, hb.treeOrder_eq hlt', h.children_eq (hbase j hj) hle hlt,
      List.map_cons, List.flatMap_map, List.map_flatMap]
    refine congrArg _ (List.flatMap_congr fun c hc => ?_)
    exact ih c (ha.before j c hc) (ha.mem_descendants_of_child hi hj hc)

/-- The tree under the last node of an excerpt is copied. -/
theorem restates (hb : b.Forest)
    (hplace : ∀ j ∈ a.descendants i, ∀ n, a.node? j = some n →
      X.origin ≤ n.start ∧ X.origin ≤ n.stop) :
    a.Restates b i X.origin X.target X.shift.number where
  injective j hj k hk := number_inj (hbase j hj) (hbase k hk)
  descendants := by
    have hroot := ha.root_mem_descendants hi
    obtain ⟨n, hn⟩ := exists_node? hi
    have hlt : X.shift.number i < b.size :=
      lt_size_of_payload? (h.payload_eq (hbase i hroot) le_rfl (payload?_of_node? hn))
    rw [hb.descendants_eq, ha.descendants_eq, h.treeOrder_eq ha hi hbase hb hroot]
  node j hj := by
    have hle := ha.le_of_reaches ((ha.mem_descendants hi).mp hj)
    obtain ⟨k, hk⟩ := exists_node? (ha.lt_of_mem_descendants hi hj)
    have hspan : b.span? (X.shift.number j) =
        some ⟨X.shift.place k.start, X.shift.place k.stop⟩ := by
      rw [h.span j (hbase j hj) hle, span?_of_node? hk]
      rfl
    obtain ⟨k', hk', hpayload, hspan⟩ :=
      exists_node?_of_span? (h.payload_eq (hbase j hj) hle (payload?_of_node? hk)) hspan
    obtain ⟨hstart, hstop⟩ := Span.mk.inj hspan
    obtain ⟨hs, ht⟩ := hplace j hj k hk
    refine ⟨k, k', hk, hk', hpayload, ?_, ?_, fun hne => ?_⟩
    · rw [hstart]
      dsimp only
      omega
    · rw [hstop]
      dsimp only
      omega
    · obtain ⟨p, hp, hparent⟩ := ha.parent_mem_descendants hi hj hne
      have hle := ha.le_of_reaches ((ha.mem_descendants hi).mp hp)
      have hc' : X.shift.number j ∈ b.children (X.shift.number p) := by
        rw [h.children_eq (hbase p hp) hle (ha.lt_of_mem_descendants hi hp)]
        exact List.mem_map_of_mem ((ha.parent j p).mp hparent)
      have hparent' := (hb.parent _ _).mpr hc'
      rw [parent?, hk] at hparent
      rw [parent?, hk'] at hparent'
      rw [show k'.parent = _ from hparent', show k.parent = _ from hparent, Option.map_some]

end Copies

end Grammar.Excerpt

end PhpAtlas
