import Mathlib.Data.List.Forall2
import Mathlib.Order.Nat
import PhpAtlas.Proofs.Mapping.Compound
import PhpAtlas.Proofs.PhpType.Subterms

/-! # What newer versions allow

A hint does not get lost where more may be declared: for a newer version or at
a position that allows more, a registry of the same shapes gives a type the
same hint. Parameters and other positions allow the same.
-/

namespace PhpAtlas

open PhpType (null)

/-- How much may be declared at the position. -/
def Position.rank : Position → Nat
  | property => 0
  | param | anywhere => 1
  | result => 2

instance : Preorder Position := .lift Position.rank

instance (p q : Position) : Decidable (p ≤ q) := inferInstanceAs (Decidable (p.rank ≤ q.rank))

namespace Position

variable {p q : Position}

theorem eq_result_of_le (h : p ≤ q) (hp : p = .result) : q = .result := by
  subst hp
  cases q with
  | result => rfl
  | _ => exact absurd h (by decide)

theorem eq_property_of_le (h : p ≤ q) (hq : q = .property) : p = .property := by
  subst hq
  cases p with
  | property => rfl
  | _ => exact absurd h (by decide)

end Position

namespace Registry

variable {shapes : List Shape} {v w : Version} {p q : Position} {t : PhpType} {ts : List PhpType}
variable {h : TypeHint}

/-- Each hint that the one result holds is also that of the other. -/
def Extends (own own' : HintResult) : Prop := ∀ h, own = .ok (some h) → own' = .ok (some h)

theorem extends_error {e : UnsupportedShape} {own : HintResult} : Extends (.error e) own := by
  rintro h ⟨⟩

theorem extends_keywordIf {allowed allowed' : Bool} {s : String}
    (ha : allowed = true → allowed' = true) :
    Extends (keywordIf allowed s) (keywordIf allowed' s) := by
  intro h hh
  obtain ⟨hal, rfl⟩ := keywordIf_eq_some hh
  rw [ha hal]
  rfl

section Newer

variable (hv : v.id ≤ w.id)

include hv

theorem supports_newer {f : Feature} (hs : v.supports f = true) : w.supports f = true :=
  decide_eq_true (le_trans (of_decide_eq_true hs) hv)

theorem allowsGroups_newer (hg : allowsGroups ⟨shapes, v⟩ = true) :
    allowsGroups ⟨shapes, w⟩ = true :=
  decide_eq_true (le_trans (of_decide_eq_true hg) hv)

theorem hintOrNull_newer {own : TypeHint} (ho : hintOrNull ⟨shapes, v⟩ own = some h) :
    hintOrNull ⟨shapes, w⟩ own = some h := by
  cases own with
  | intersection ts =>
    rw [hintOrNull] at ho ⊢
    split at ho
    · next hg => rwa [if_pos (allowsGroups_newer hv hg)]
    · cases ho
  | _ => exact ho

theorem barredFromUnion_newer (hb : barredFromUnion ⟨shapes, v⟩ t = false) :
    barredFromUnion ⟨shapes, w⟩ t = false := by
  unfold barredFromUnion at hb ⊢
  split at hb
  · cases hb
  · cases hb
  · cases hb
  · rw [Bool.not_eq_false'] at hb ⊢
    exact allowsGroups_newer hv hb
  · rfl

theorem extends_nullableHint {own own' : HintResult} (ho : Extends own own') :
    Extends (nullableHint ⟨shapes, v⟩ t own) (nullableHint ⟨shapes, w⟩ t own') := by
  intro h hh
  rw [nullableHint_eq_some_iff] at hh ⊢
  rcases hh with ⟨ht, hh⟩ | ⟨ht, hs, inner, hi, hh⟩
  · exact .inl ⟨ht, ho h hh⟩
  · exact .inr ⟨ht, supports_newer hv hs, inner, ho inner hi, hintOrNull_newer hv hh⟩

theorem extends_unionHint {withNull : Bool}
    (ht : ∀ t ∈ ts, Extends (hint ⟨shapes, v⟩ p t) (hint ⟨shapes, w⟩ q t)) :
    Extends (unionHint ⟨shapes, v⟩ (hintsOf ⟨shapes, v⟩ p ts) withNull)
      (unionHint ⟨shapes, w⟩ (hintsOf ⟨shapes, w⟩ q ts) withNull) := by
  intro h hh
  obtain ⟨hs, hints, hj, hh⟩ := unionHint_eq_some_iff.mp hh
  have hj' : List.Forall₂ (Joins ⟨shapes, w⟩ q) ts hints :=
    ((List.forall₂_and_left ts hints).mpr ⟨ht, hj⟩).imp fun _ h ⟨ht, hb, ho⟩ =>
      ⟨barredFromUnion_newer hv hb, ht h ho⟩
  exact unionHint_eq_some_iff.mpr ⟨supports_newer hv hs, hints, hj', hh⟩

theorem extends_hintAs_union
    (hm : ∀ t ∈ ts, Extends (hint ⟨shapes, v⟩ p t) (hint ⟨shapes, w⟩ q t)) :
    Extends (hintAs ⟨shapes, v⟩ p .union (.union ts)) (hintAs ⟨shapes, w⟩ q .union (.union ts)) := by
  have hm : ∀ t ∈ ts.filter (· != null), Extends (hint ⟨shapes, v⟩ p t) (hint ⟨shapes, w⟩ q t) :=
    fun t ht => hm t (List.mem_of_mem_filter ht)
  intro h hh
  rw [hintAs_union_eq_some_iff] at hh ⊢
  rcases hh with ⟨t, hf, hn, hh⟩ | ⟨t, hf, hn, hh⟩ | ⟨hlen, hh⟩
  · have ht := hm t (hf ▸ List.mem_singleton_self t)
    exact .inl ⟨t, hf, hn, extends_nullableHint hv ht h hh⟩
  · have ht := hm t (hf ▸ List.mem_singleton_self t)
    exact .inr (.inl ⟨t, hf, hn, ht h hh⟩)
  · exact .inr (.inr ⟨hlen, extends_unionHint hv hm h hh⟩)

theorem extends_hintAs_intersection
    (hm : ∀ t ∈ ts, Extends (hint ⟨shapes, v⟩ p t) (hint ⟨shapes, w⟩ q t)) :
    Extends (hintAs ⟨shapes, v⟩ p .intersection (.intersection ts))
      (hintAs ⟨shapes, w⟩ q .intersection (.intersection ts)) := by
  intro h hh
  rw [hintAs_intersection_eq_some_iff] at hh ⊢
  obtain ⟨hs, names, hn, rfl⟩ := hh
  have hn' := ((List.forall₂_and_left ts names).mpr ⟨hm, hn⟩).imp fun _ _ ⟨ht, ho⟩ => ht _ ho
  exact ⟨supports_newer hv hs, names, hn', rfl⟩

variable (hp : p ≤ q)

include hp

theorem result_and_newer {f : Feature} (hs : (p = .result && supports ⟨shapes, v⟩ f) = true) :
    (q = .result && supports ⟨shapes, w⟩ f) = true := by
  simp only [Bool.and_eq_true, decide_eq_true_eq] at hs ⊢
  exact ⟨Position.eq_result_of_le hp hs.1, supports_newer hv hs.2⟩

theorem allowsSimple_newer {s : SimpleType} (hs : allowsSimple ⟨shapes, v⟩ p s = true) :
    allowsSimple ⟨shapes, w⟩ q s = true := by
  cases s with
  | void | never => exact result_and_newer hv hp hs
  | callable =>
    simp only [allowsSimple, bne_iff_ne] at hs ⊢
    exact fun hq => hs (Position.eq_property_of_le hp hq)
  | null | resource => exact hs
  | _ => exact supports_newer hv hs

theorem untyped_newer (hu : untyped v p = false) : untyped w q = false := by
  simp only [untyped, Bool.and_eq_false_iff, beq_eq_false_iff_ne, Bool.not_eq_false'] at hu ⊢
  exact hu.imp (fun hq he => hq (Position.eq_property_of_le hp he)) (supports_newer hv)

/-- What a type is given follows what its members are given. -/
theorem extends_hintAs (shape : Shape)
    (hm : ∀ u ∈ t.members, Extends (hint ⟨shapes, v⟩ p u) (hint ⟨shapes, w⟩ q u)) :
    Extends (hintAs ⟨shapes, v⟩ p shape t) (hintAs ⟨shapes, w⟩ q shape t) := by
  cases shape with
  | simple s =>
    simp only [hintAs]
    exact extends_keywordIf (allowsSimple_newer hv hp)
  | classString | iterable =>
    simp only [hintAs]
    exact extends_keywordIf (supports_newer hv)
  | staticReference =>
    simp only [hintAs]
    exact extends_keywordIf (result_and_newer hv hp)
  | array | selfReference | parentReference =>
    simp only [hintAs]
    exact fun _ hh => hh
  | object =>
    simp only [hintAs]
    cases t.className? with
    | none => exact extends_error
    | some name => exact fun _ hh => hh
  | genericObject =>
    cases t with
    | generic => exact fun _ hh => hh
    | _ => exact extends_error
  | union =>
    cases t with
    | union ts => exact extends_hintAs_union hv hm
    | _ => exact extends_error
  | nullable =>
    cases t with
    | nullable t =>
      cases t with
      | union ts =>
        rw [hintAs_nullable_union, hintAs_nullable_union]
        exact extends_unionHint hv fun t ht => hm t (List.mem_of_mem_filter ht)
      | _ =>
        rw [hintAs_nullable (by simp), hintAs_nullable (by simp)]
        exact extends_nullableHint hv (hm _ List.mem_cons_self)
    | _ => exact extends_error
  | intersection =>
    cases t with
    | intersection ts => exact extends_hintAs_intersection hv hm
    | _ => exact extends_error

theorem extends_hint (t : PhpType) : Extends (hint ⟨shapes, v⟩ p t) (hint ⟨shapes, w⟩ q t) := by
  induction t using PhpType.members_induct with
  | step t ih =>
    intro h hh
    rw [hint_eq_some_iff] at hh ⊢
    obtain ⟨hu, shape, hs, hh⟩ := hh
    refine ⟨untyped_newer hv hp hu, shape, ?_, extends_hintAs hv hp shape ih h hh⟩
    unfold select at hs ⊢
    split at hs
    · next hf => rwa [hf]
    · cases hs

end Newer

/-- Where a registry gives a type a hint, every registry of the same shapes for a version at least
as new gives it the same hint at every position that allows at least as much. -/
theorem hint_mono (shapes : List Shape) (t : PhpType) (h : TypeHint) :
    (∀ v w p q, v.id ≤ w.id → p ≤ q → hint ⟨shapes, v⟩ p t = .ok (some h) →
      hint ⟨shapes, w⟩ q t = .ok (some h)) ∧
    ∀ v, hint ⟨shapes, v⟩ .param t = .ok (some h) ↔
      hint ⟨shapes, v⟩ .anywhere t = .ok (some h) := by
  refine ⟨fun v w p q hv hp hh => extends_hint hv hp t h hh, fun v => ⟨?_, ?_⟩⟩
  · exact extends_hint le_rfl (by decide) t h
  · exact extends_hint le_rfl (by decide) t h

theorem hint_mono_group :
    let shapes : List Shape := [.object, .nullable, .intersection, .union, .simple .string]
    let a : PhpType := .generic "\\A" [.simple .int]
    let t : PhpType := .union [.null, .nullable (.intersection [a, .object .named "B"]),
      .classString none]
    let b : TypeHint := .union [.intersection [.ofClass "A", .ofClass "B"], .keyword "null",
      .keyword "string"]
    hint ⟨shapes, .of 8 2⟩ .property t = .ok (some b) ∧
    hint ⟨shapes, .of 8 3⟩ .result t = .ok (some b) := by
  intro shapes a t b
  have hh : hint ⟨shapes, .of 8 2⟩ .property t = .ok (some b) := by decide +kernel
  exact ⟨hh, (hint_mono shapes t b).1 _ _ _ _ (by decide) (by decide) hh⟩

end Registry

end PhpAtlas
