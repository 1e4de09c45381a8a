import PhpAtlas.Proofs.Tree.Forest

/-! # Slots under a map

Sending the slots of a construct through a function keeps the construct and the
order of its slots, and follows the composition of functions. Where the function
keeps empty slots apart from nodes, the children are sent through it, too.
-/

namespace PhpAtlas.Payload

variable {α β γ : Type}

theorem slots_map (f : α → β) (p : Payload α) : (p.map f).slots = p.slots.map f := by
  cases p <;> simp [map, slots, List.flatMap_map, List.map_flatMap]

theorem kind_map (f : α → β) (p : Payload α) : (p.map f).kind = p.kind := by
  cases p with
  | classLike form d => cases form <;> rfl
  | function form d => cases form <;> rfl
  | call form => cases form <;> rfl
  | access form => cases form <;> rfl
  | literal form value => cases form <;> rfl
  | _ => rfl

theorem map_map (f : α → β) (g : β → γ) (p : Payload α) : (p.map f).map g = p.map (g ∘ f) := by
  cases p <;> simp [map, Function.comp_def]

theorem map_congr {f g : α → β} {p : Payload α} (h : ∀ x ∈ p.slots, f x = g x) :
    p.map f = p.map g := by
  cases p with
  | array entries =>
    refine congrArg array (List.map_congr_left fun (key, value) he => ?_)
    have hs {x : α} (hx : x ∈ [key, value]) : x ∈ (array entries).slots :=
      List.mem_flatMap.mpr ⟨_, he, hx⟩
    exact Prod.ext (h key (hs (by simp))) (h value (hs (by simp)))
  | _ => simp_all [map, slots]

/-! ## Children -/

theorem map_some_filterMap_id (xs : List (Option α)) :
    (xs.filterMap id).map some = xs.filter Option.isSome := by
  induction xs with
  | nil => rfl
  | cons x xs ih =>
    cases x with
    | none => exact ih
    | some x => exact congrArg (some x :: ·) ih

variable {p : Payload (Option NodeId)} {f : Option NodeId → Option NodeId}

/-- The children of a renumbered construct are its children, renumbered one by one. -/
theorem childrenOf_map_of_none_iff (hf : ∀ x, f x = none ↔ x = none) :
    (Arena.childrenOf (p.map f)).map some = (Arena.childrenOf p).map fun i => f (some i) := by
  have hkept (x : Option NodeId) : (f x).isSome = x.isSome := by
    rw [Bool.eq_iff_iff, Option.isSome_iff_ne_none, Option.isSome_iff_ne_none, ne_eq, hf]
  calc (Arena.childrenOf (p.map f)).map some
    _ = (p.slots.map f).filter Option.isSome := by rw [map_some_filterMap_id, slots_map]
    _ = (p.slots.filter Option.isSome).map f := by
      rw [List.filter_map]
      exact congrArg (List.map f) (List.filter_congr fun x _ => hkept x)
    _ = (Arena.childrenOf p).map fun i => f (some i) := by
      rw [← map_some_filterMap_id, List.map_map]
      rfl

/-- A renumbered construct depends on no slots but the empty ones and those of its children. -/
theorem map_congr_childrenOf {g : Option NodeId → Option NodeId} (hnone : f none = g none)
    (h : ∀ i ∈ Arena.childrenOf p, f (some i) = g (some i)) : p.map f = p.map g := by
  refine map_congr fun x hx => ?_
  cases x with
  | none => exact hnone
  | some i => exact h i (List.mem_filterMap.mpr ⟨some i, hx, rfl⟩)

/-- Renumbering a construct and reading off its children reach the same slots. Where empty slots,
and only they, are sent to empty slots, the children are the former ones, renumbered one by one and
in their order. Nothing else is renumbered, and renumbering twice is renumbering by the
composition. -/
theorem renumbered (p : Payload (Option NodeId)) :
    (∀ f : Option NodeId → Option NodeId, (∀ x, f x = none ↔ x = none) →
      (Arena.childrenOf (p.map f)).map some = (Arena.childrenOf p).map fun i => f (some i)) ∧
    (∀ f g : Option NodeId → Option NodeId, f none = g none →
      (∀ i ∈ Arena.childrenOf p, f (some i) = g (some i)) → p.map f = p.map g) ∧
    ∀ f g : Option NodeId → Option NodeId, (p.map f).map g = p.map (g ∘ f) :=
  ⟨fun _ => childrenOf_map_of_none_iff, fun _ _ => map_congr_childrenOf, fun f g => map_map f g p⟩

/-- The key of the first entry is missing. -/
theorem renumbered_entries :
    let entries : Payload (Option NodeId) := .array [(none, some 3), (some 5, some 4)]
    let later : Option NodeId → Option NodeId := Option.map (· + 10)
    let same : Option NodeId → Option NodeId := Option.map fun i => if i < 9 then i + 10 else i
    (∀ x, later x = none ↔ x = none) ∧
      (∀ i ∈ Arena.childrenOf entries, later (some i) = same (some i)) ∧
      (Arena.childrenOf (entries.map later)).map some = [some 13, some 15, some 14] ∧
      entries.map later = entries.map same := by
  intro entries later same
  have hlater (x : Option NodeId) : later x = none ↔ x = none := Option.map_eq_none_iff
  have hagree : ∀ i ∈ Arena.childrenOf entries, later (some i) = same (some i) := by decide
  obtain ⟨hchildren, hcongr, -⟩ := renumbered entries
  exact ⟨hlater, hagree, hchildren later hlater, hcongr later same rfl hagree⟩

end PhpAtlas.Payload
