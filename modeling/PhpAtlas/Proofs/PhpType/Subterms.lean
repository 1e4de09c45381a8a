import Mathlib.Data.List.Nodup
import PhpAtlas.PhpType.Basic

/-! # Types inside of types

A type is built from others down to types without parts, which gives induction
on types and the list of all types that stand inside of one. The hint of a type
depends on fewer of them, its members.
-/

namespace PhpAtlas

section EraseDups

variable {α : Type} [BEq α] [LawfulBEq α]

theorem nodup_eraseDups (xs : List α) : xs.eraseDups.Nodup := by
  cases xs with
  | nil => exact List.nodup_nil
  | cons x xs =>
    rw [List.eraseDups_cons, List.nodup_cons]
    refine ⟨?_, nodup_eraseDups (xs.filter fun y => !y == x)⟩
    simp [List.mem_eraseDups]
termination_by xs.length
decreasing_by simpa using Nat.lt_succ_of_le (List.length_filter_le (fun y => !y == x) xs)

theorem eraseDups_of_nodup {xs : List α} (hx : xs.Nodup) : xs.eraseDups = xs := by
  induction xs with
  | nil => rfl
  | cons x xs ih =>
    obtain ⟨hn, hx⟩ := List.nodup_cons.mp hx
    have hf : (xs.filter fun y => !y == x) = xs := by
      apply List.filter_eq_self.mpr
      rintro y hy
      simp only [Bool.not_eq_true', beq_eq_false_iff_ne]
      rintro rfl
      exact hn hy
    rw [List.eraseDups_cons, hf, ih hx]

end EraseDups

namespace PhpType

variable {s t u : PhpType} {ts : List PhpType}

/-- Induction on types, where those in a list are all smaller. -/
@[elab_as_elim]
theorem induct {motive : PhpType → Prop} (simple : ∀ s, motive (simple s))
    (classString : ∀ bound, motive (classString bound))
    (iterable : ∀ item, motive item → motive (iterable item))
    (array : ∀ key item, motive key → motive item → motive (array key item))
    (object : ∀ form name, motive (object form name))
    (generic : ∀ name args, (∀ t ∈ args, motive t) → motive (generic name args))
    (union : ∀ ts, (∀ t ∈ ts, motive t) → motive (union ts))
    (nullable : ∀ t, motive t → motive (nullable t))
    (intersection : ∀ ts, (∀ t ∈ ts, motive t) → motive (intersection ts)) (t : PhpType) :
    motive t :=
  @rec motive (fun ts => ∀ t ∈ ts, motive t) simple classString iterable array object generic union
    nullable intersection nofun (fun _ _ ht hts => List.forall_mem_cons.mpr ⟨ht, hts⟩) t

/-- The types on whose hints the hint of the type depends. -/
def members : PhpType → List PhpType
  | union ts | intersection ts | nullable (union ts) => ts
  | nullable t => [t]
  | _ => []

theorem sizeOf_lt_of_mem_members (hu : u ∈ t.members) : sizeOf u < sizeOf t := by
  unfold members at hu
  split at hu
  · have := List.sizeOf_lt_of_mem hu
    simp only [union.sizeOf_spec]
    omega
  · have := List.sizeOf_lt_of_mem hu
    simp only [intersection.sizeOf_spec]
    omega
  · have := List.sizeOf_lt_of_mem hu
    simp only [nullable.sizeOf_spec, union.sizeOf_spec]
    omega
  · obtain rfl := List.mem_singleton.mp hu
    simp only [nullable.sizeOf_spec]
    omega
  · cases hu

/-- Induction on types from their members. -/
theorem members_induct {motive : PhpType → Prop}
    (step : ∀ t, (∀ u ∈ t.members, motive u) → motive t) (t : PhpType) : motive t :=
  step t fun u _ => members_induct step u
termination_by sizeOf t
decreasing_by exact sizeOf_lt_of_mem_members ‹_›

mutual

/-- The type and all types that it is built from. -/
def subterms : PhpType → List PhpType
  | simple s => [simple s]
  | classString bound => [classString bound]
  | iterable item => iterable item :: subterms item
  | array key item => array key item :: (subterms key ++ subterms item)
  | object form name => [object form name]
  | generic name args => generic name args :: subtermsOf args
  | union ts => union ts :: subtermsOf ts
  | nullable t => nullable t :: subterms t
  | intersection ts => intersection ts :: subtermsOf ts

def subtermsOf : List PhpType → List PhpType
  | [] => []
  | t :: ts => subterms t ++ subtermsOf ts

end

theorem mem_subterms_self (t : PhpType) : t ∈ t.subterms := by
  cases t <;> simp [subterms]

theorem mem_subtermsOf : s ∈ subtermsOf ts ↔ ∃ t ∈ ts, s ∈ t.subterms := by
  induction ts with
  | nil => simp [subtermsOf]
  | cons t ts ih => simp [subtermsOf, ih]

theorem mem_subterms_of_mem_members (hs : s ∈ u.subterms) (hu : u ∈ t.members) :
    s ∈ t.subterms := by
  unfold members at hu
  split at hu
  · exact List.mem_cons_of_mem _ (mem_subtermsOf.mpr ⟨u, hu, hs⟩)
  · exact List.mem_cons_of_mem _ (mem_subtermsOf.mpr ⟨u, hu, hs⟩)
  · exact List.mem_cons_of_mem _ (List.mem_cons_of_mem _ (mem_subtermsOf.mpr ⟨u, hu, hs⟩))
  · obtain rfl := List.mem_singleton.mp hu
    exact List.mem_cons_of_mem _ hs
  · cases hu

/-- The types that the type is directly built from. -/
def components : PhpType → List PhpType
  | iterable item => [item]
  | array key item => [key, item]
  | generic _ ts | union ts | intersection ts => ts
  | nullable t => [t]
  | simple _ | classString _ | object .. => []

/-- Induction on types from their components. -/
theorem components_induct {motive : PhpType → Prop}
    (step : ∀ t, (∀ u ∈ t.components, motive u) → motive t) (t : PhpType) : motive t := by
  induction t using induct with
  | simple | classString | object => exact step _ nofun
  | iterable | nullable => exact step _ (by simpa [components])
  | array => exact step _ (by simpa [components] using ⟨‹_›, ‹_›⟩)
  | generic | union | intersection => exact step _ ‹_›

theorem subterms_subset_of_mem_components (hu : u ∈ t.components) : u.subterms ⊆ t.subterms := by
  cases t with
  | simple | classString | object => cases hu
  | iterable | nullable =>
    obtain rfl := List.mem_singleton.mp hu
    exact List.subset_cons_self _ _
  | array key item =>
    rw [subterms]
    rcases List.mem_pair.mp hu with rfl | rfl
    · exact List.subset_cons_of_subset _ (List.subset_append_left _ _)
    · exact List.subset_cons_of_subset _ (List.subset_append_right _ _)
  | generic | union | intersection =>
    exact fun s hs => List.mem_cons_of_mem _ (mem_subtermsOf.mpr ⟨u, hu, hs⟩)

/-! ## Types as they should be built -/

/-- The type is neither a union nor nullable. -/
def Undivided : PhpType → Prop
  | union _ | nullable _ => False
  | _ => True

/-- The rule for the outermost form of a type: a union has at least two different members, and all
of them are undivided; null is added once, and only to types without it. -/
def Regular : PhpType → Prop
  | union ts => 2 ≤ ts.length ∧ ts.Nodup ∧ ∀ t ∈ ts, t.Undivided
  | nullable t => t.Undivided ∧ t ≠ null ∧ t ≠ mixed
  | intersection ts => 2 ≤ ts.length
  | _ => True

/-- The type and all types in it keep the rule. -/
def Canonical (t : PhpType) : Prop := ∀ s ∈ t.subterms, s.Regular

theorem Canonical.two_le_length (hc : t.Canonical) (hs : intersection ts ∈ t.subterms) :
    2 ≤ ts.length := hc _ hs

instance : DecidablePred Undivided
  | union _ | nullable _ => isFalse id
  | simple _ | classString _ | iterable _ | array .. | object .. | generic .. | intersection _ =>
      isTrue trivial

instance : DecidablePred Regular
  | union ts => inferInstanceAs (Decidable (2 ≤ ts.length ∧ ts.Nodup ∧ ∀ t ∈ ts, t.Undivided))
  | nullable t => inferInstanceAs (Decidable (t.Undivided ∧ t ≠ null ∧ t ≠ mixed))
  | intersection ts => inferInstanceAs (Decidable (2 ≤ ts.length))
  | simple _ | classString _ | iterable _ | array .. | object .. | generic .. => isTrue trivial

instance (t : PhpType) : Decidable t.Canonical :=
  inferInstanceAs (Decidable (∀ s ∈ t.subterms, s.Regular))

end PhpType

end PhpAtlas
