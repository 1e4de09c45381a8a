import PhpAtlas.Proofs.Mapping.Compound
import PhpAtlas.Proofs.PhpType.Subterms

/-! # Legal hints

A language version sets rules for the types that a source declares: which parts
they may have, at which positions, and since when. The hints that the standard
registry gives to types that are built as types should be keep all of them.
-/

namespace PhpAtlas

/-! ## Rules for hints -/

namespace TypeHint

mutual

/-- The hint and all hints in it. -/
def subhints : TypeHint → List TypeHint
  | keyword s => [keyword s]
  | name n => [name n]
  | nullable h => nullable h :: subhints h
  | union hs => union hs :: subhintsOf hs
  | intersection hs => intersection hs :: subhintsOf hs

def subhintsOf : List TypeHint → List TypeHint
  | [] => []
  | h :: hs => subhints h ++ subhintsOf hs

end

theorem subhintsOf_eq_flatMap (hs : List TypeHint) : subhintsOf hs = hs.flatMap subhints := by
  induction hs with
  | nil => rfl
  | cons h hs ih => rw [subhintsOf, ih, List.flatMap_cons]

/-- The keywords that are types by themselves, but no parts of types. -/
def loneKeywords : List String := ["void", "never", "mixed"]

/-- The rule for the outermost form of a hint. -/
def Allowed (v : Version) (position : Position) : TypeHint → Prop
  | keyword s => (s = "static" → position = .result) ∧ (s = "callable" → position ≠ .property)
  | name _ => True
  | nullable h => (Version.of 7 1).id ≤ v.id ∧
      ((∃ s, h = keyword s ∧ s ∉ "null" :: loneKeywords) ∨ ∃ n, h = name n)
  | union hs => (Version.of 8 0).id ≤ v.id ∧ 2 ≤ hs.length ∧ hs.Nodup ∧
      (∀ h ∈ hs, (∀ us, h ≠ union us) ∧ ∀ u, h ≠ nullable u) ∧
      ∀ us, intersection us ∈ subhintsOf hs → (Version.of 8 2).id ≤ v.id
  | intersection hs => (Version.of 8 1).id ≤ v.id ∧ ∀ h ∈ hs, ∃ n, h = name n

/-- The rules for a whole hint at a position. -/
structure Legal (v : Version) (position : Position) (b : TypeHint) : Prop where
  typed : position = .property → (Version.of 7 4).id ≤ v.id
  alone : ∀ s ∈ loneKeywords, keyword s ∈ b.subhints → b = keyword s
  null : keyword "null" ∈ b.subhints → b.subhints.count (keyword "null") = 1 ∧
    ∃ hs, union hs ∈ b.subhints ∧ keyword "null" ∈ hs
  parts : ∀ h ∈ b.subhints, Allowed v position h

variable {v : Version} {position : Position} {h k : TypeHint} {hs : List TypeHint}

theorem mem_subhintsOf : k ∈ subhintsOf hs ↔ ∃ h ∈ hs, k ∈ h.subhints := by
  rw [subhintsOf_eq_flatMap, List.mem_flatMap]

theorem mem_subhints_self (h : TypeHint) : h ∈ h.subhints := by
  cases h <;> simp [subhints]

/-! ## Hints without null -/

/-- A hint of one token that may be declared together with others. -/
inductive Basic (position : Position) : TypeHint → Prop
  | keyword {s : String} (hs : s ∉ "null" :: loneKeywords)
      (hr : s = "static" → position = .result) (hp : s = "callable" → position ≠ .property) :
      Basic position (.keyword s)
  | name (n : WrittenName) : Basic position (.name n)

/-- A hint that may be declared together with null. -/
inductive Single (v : Version) (position : Position) : TypeHint → Prop
  | basic {h : TypeHint} (hb : Basic position h) : Single v position h
  | intersection (hv : (Version.of 8 1).id ≤ v.id) (names : List WrittenName) :
      Single v position (.intersection (names.map .name))

theorem basic_of_notMem {s : String}
    (hs : s ∉ "static" :: "callable" :: "null" :: loneKeywords) :
    Basic position (.keyword s) := by
  simp only [List.mem_cons, not_or] at hs
  refine .keyword ?_ (fun he => absurd he hs.1) fun he => absurd he hs.2.1
  simpa only [List.mem_cons, not_or] using hs.2.2

theorem Basic.subhints (hb : Basic position h) : h.subhints = [h] := by
  cases hb <;> rfl

theorem Basic.allowed (hb : Basic position h) : Allowed v position h := by
  cases hb with
  | keyword _ hr hp => exact ⟨hr, hp⟩
  | name => trivial

namespace Single

theorem mem_subhints (hs : Single v position h) (hk : k ∈ h.subhints) :
    k = h ∨ ∃ n, k = .name n := by
  cases hs with
  | basic hb => exact .inl (List.mem_singleton.mp (hb.subhints ▸ hk))
  | intersection _ names =>
    rcases List.mem_cons.mp hk with hk | hk
    · exact .inl hk
    · obtain ⟨_, hn, hk⟩ := mem_subhintsOf.mp hk
      obtain ⟨n, -, rfl⟩ := List.mem_map.mp hn
      exact .inr ⟨n, List.mem_singleton.mp hk⟩

theorem allowed (hs : Single v position h) : ∀ k ∈ h.subhints, Allowed v position k := by
  intro k hk
  rcases hs.mem_subhints hk with rfl | ⟨n, rfl⟩
  · cases hs with
    | basic hb => exact hb.allowed
    | intersection hv names =>
      refine ⟨hv, fun h hh => ?_⟩
      obtain ⟨n, -, rfl⟩ := List.mem_map.mp hh
      exact ⟨n, rfl⟩
  · trivial

theorem keyword_notMem {s : String} (hs : Single v position h)
    (hm : s ∈ "null" :: loneKeywords) : .keyword s ∉ h.subhints := by
  intro hk
  rcases hs.mem_subhints hk with rfl | ⟨n, hn⟩
  · cases hs with
    | basic hb =>
      cases hb with
      | keyword hs => exact hs hm
  · cases hn

end Single

/-! ## Legal forms -/

theorem Single.legal (ht : position = .property → (Version.of 7 4).id ≤ v.id)
    (hs : Single v position h) : Legal v position h where
  typed := ht
  alone _ hm hk := absurd hk (hs.keyword_notMem (List.mem_cons_of_mem _ hm))
  null hk := absurd hk (hs.keyword_notMem List.mem_cons_self)
  parts := hs.allowed

theorem legal_alone {s : String} (ht : position = .property → (Version.of 7 4).id ≤ v.id)
    (hs : s ∈ loneKeywords) : Legal v position (.keyword s) where
  typed := ht
  alone _ _ hk := (List.mem_singleton.mp hk).symm
  null hk := by
    cases List.mem_singleton.mp hk
    exact absurd hs (by decide)
  parts k hk := by
    cases List.mem_singleton.mp hk
    refine ⟨?_, ?_⟩ <;> (rintro rfl; exact absurd hs (by decide))

theorem legal_nullable (ht : position = .property → (Version.of 7 4).id ≤ v.id)
    (hv : (Version.of 7 1).id ≤ v.id) (hb : Basic position h) :
    Legal v position (.nullable h) where
  typed := ht
  alone _ hm hk := by
    obtain ⟨⟩ | ⟨_, hk⟩ := hk
    exact absurd hk ((Single.basic (v := v) hb).keyword_notMem (List.mem_cons_of_mem _ hm))
  null hk := by
    obtain ⟨⟩ | ⟨_, hk⟩ := hk
    exact absurd hk ((Single.basic (v := v) hb).keyword_notMem List.mem_cons_self)
  parts k hk := by
    obtain ⟨⟩ | ⟨_, hk⟩ := hk
    · refine ⟨hv, ?_⟩
      cases hb with
      | @keyword s hs => exact .inl ⟨s, rfl, hs⟩
      | name n => exact .inr ⟨n, rfl⟩
    · exact (Single.basic hb).allowed k hk

theorem count_subhintsOf (hm : ∀ h ∈ hs, h = .keyword "null" ∨ Single v position h) :
    (subhintsOf hs).count (.keyword "null") = hs.count (.keyword "null") := by
  induction hs with
  | nil => rfl
  | cons h hs ih =>
    obtain ⟨hh, hm⟩ := List.forall_mem_cons.mp hm
    rw [subhintsOf, List.count_append, ih hm, List.count_cons, Nat.add_comm]
    congr 1
    rcases hh with rfl | hs
    · rfl
    · have hn := hs.keyword_notMem (List.mem_cons_self (a := "null"))
      rw [List.count_eq_zero.mpr hn, if_neg]
      intro he
      exact hn (beq_iff_eq.mp he ▸ mem_subhints_self h)

theorem mem_of_mem_subhintsOf (hm : ∀ h ∈ hs, h = .keyword "null" ∨ Single v position h)
    (hk : k ∈ subhintsOf hs) : k ∈ hs ∨ ∃ n, k = .name n := by
  obtain ⟨h, hh, hk⟩ := mem_subhintsOf.mp hk
  rcases hm h hh with rfl | hs
  · exact .inl (List.mem_singleton.mp hk ▸ hh)
  · exact (hs.mem_subhints hk).imp_left fun (he : k = h) => he ▸ hh

theorem allowed_union (hv : (Version.of 8 0).id ≤ v.id) (hlen : 2 ≤ hs.length) (hd : hs.Nodup)
    (hm : ∀ h ∈ hs, h = .keyword "null" ∨ Single v position h)
    (hg : ∀ us, .intersection us ∈ hs → (Version.of 8 2).id ≤ v.id) :
    Allowed v position (.union hs) := by
  refine ⟨hv, hlen, hd, fun h hh => ?_, fun us hu => ?_⟩
  · rcases hm h hh with rfl | hs
    · exact ⟨nofun, nofun⟩
    · cases hs with
      | basic hb => cases hb <;> exact ⟨nofun, nofun⟩
      | intersection => exact ⟨nofun, nofun⟩
  · rcases mem_of_mem_subhintsOf hm hu with hu | ⟨n, hn⟩
    · exact hg us hu
    · cases hn

theorem legal_union (ht : position = .property → (Version.of 7 4).id ≤ v.id)
    (hv : (Version.of 8 0).id ≤ v.id) (hlen : 2 ≤ hs.length) (hd : hs.Nodup)
    (hm : ∀ h ∈ hs, h = .keyword "null" ∨ Single v position h)
    (hg : ∀ us, .intersection us ∈ hs → (Version.of 8 2).id ≤ v.id) :
    Legal v position (.union hs) := by
  have hmem : ∀ s, keyword s ∈ (union hs).subhints → keyword s ∈ hs := by
    rintro s (_ | ⟨_, hk⟩)
    rcases mem_of_mem_subhintsOf hm hk with hk | ⟨n, hn⟩
    · exact hk
    · cases hn
  refine ⟨ht, fun s hs hk => ?_, fun hk => ?_, fun k hk => ?_⟩
  · rcases hm _ (hmem s hk) with he | hj
    · cases he
      exact absurd hs (by decide)
    · exact absurd (mem_subhints_self _) (hj.keyword_notMem (List.mem_cons_of_mem _ hs))
  · have hn := hmem _ hk
    refine ⟨?_, hs, mem_subhints_self _, hn⟩
    rw [subhints, List.count_cons_of_ne (by simp), count_subhintsOf hm]
    exact List.count_eq_one_of_mem hd hn
  · obtain ⟨⟩ | ⟨_, hk⟩ := hk
    · exact allowed_union hv hlen hd hm hg
    · obtain ⟨h, hh, hk⟩ := mem_subhintsOf.mp hk
      rcases hm h hh with rfl | hj
      · cases List.mem_singleton.mp hk
        exact ⟨nofun, nofun⟩
      · exact hj.allowed k hk

end TypeHint

namespace Registry

open TypeHint PhpType

variable {v : Version} {position : Position} {t : PhpType} {ts : List PhpType} {h b : TypeHint}

theorem hint_cases (hs : t.Undivided) (hb : (standard v).hint position t = .ok (some b)) :
    (t ∈ [mixed, .simple .void, .simple .never] ∧ ∃ s ∈ loneKeywords, b = .keyword s) ∨
    Single v position b ∧ ∀ us, b = .intersection us → ∃ ts, t = .intersection ts := by
  obtain ⟨-, hb⟩ := hint_eq_some.mp hb
  cases t with
  | simple s =>
    obtain ⟨ha, rfl⟩ := keywordIf_eq_some hb
    cases s with
    | null | resource => cases ha
    | mixed | void | never => exact .inl ⟨by decide, _, by decide, rfl⟩
    | callable =>
      refine .inr ⟨.basic (.keyword (by decide) nofun fun _ => ?_), nofun⟩
      simpa [allowsSimple] using ha
    | _ => exact .inr ⟨.basic (basic_of_notMem (by decide)), nofun⟩
  | classString | iterable =>
    obtain ⟨-, rfl⟩ := keywordIf_eq_some hb
    exact .inr ⟨.basic (basic_of_notMem (by decide)), nofun⟩
  | array =>
    cases hb
    exact .inr ⟨.basic (basic_of_notMem (by decide)), nofun⟩
  | object form name =>
    cases form with
    | named =>
      cases hb
      exact .inr ⟨.basic (.name _), nofun⟩
    | self | parent =>
      cases hb
      exact .inr ⟨.basic (basic_of_notMem (by decide)), nofun⟩
    | static =>
      obtain ⟨ha, rfl⟩ := keywordIf_eq_some hb
      refine .inr ⟨.basic (.keyword (by decide) (fun _ => ?_) nofun), nofun⟩
      simpa using (Bool.and_eq_true_iff.mp ha).1
  | generic =>
    cases hb
    exact .inr ⟨.basic (.name _), nofun⟩
  | intersection ts =>
    obtain ⟨hv, names, -, rfl⟩ := hintAs_intersection_eq_some_iff.mp hb
    exact .inr ⟨.intersection (of_decide_eq_true hv) names, fun _ _ => ⟨ts, rfl⟩⟩
  | union | nullable => exact hs.elim

theorem typed_of_hint (hb : (standard v).hint position t = .ok (some b))
    (hp : position = .property) : (Version.of 7 4).id ≤ v.id := by
  obtain ⟨hu, -⟩ := hint_eq_some.mp hb
  subst hp
  have hs : v.supports .typedProperties = true := by simpa [untyped] using hu
  exact of_decide_eq_true hs

theorem legal_of_undivided (hs : t.Undivided)
    (hb : (standard v).hint position t = .ok (some b)) : Legal v position b := by
  rcases hint_cases hs hb with ⟨-, s, hs, rfl⟩ | ⟨hs, -⟩
  · exact legal_alone (typed_of_hint hb) hs
  · exact hs.legal (typed_of_hint hb)

theorem legal_of_nullableHint (hs : t.Undivided)
    (hb : (standard v).nullableHint t ((standard v).hint position t) = .ok (some b)) :
    Legal v position b := by
  rcases nullableHint_eq_some_iff.mp hb with ⟨-, hb⟩ | ⟨ht, hv, h, hh, hb⟩
  · exact legal_of_undivided hs hb
  · rcases hint_cases hs hh with ⟨hm, -⟩ | ⟨hs, -⟩
    · exact absurd (List.mem_append_left [PhpType.null] hm) ht
    · cases hs with
      | basic hs =>
        have hb : b = .nullable h := by
          cases hs <;> exact (Option.some.inj hb).symm
        subst hb
        exact legal_nullable (typed_of_hint hh) (of_decide_eq_true hv) hs
      | intersection hi names =>
        rw [hintOrNull] at hb
        split at hb
        · next hg =>
          cases hb
          have hg : (Version.of 8 2).id ≤ v.id := of_decide_eq_true hg
          refine legal_union (typed_of_hint hh) (Nat.le_trans (by decide) hg) (Nat.le_refl 2)
            (by simp) ?_ fun _ _ => hg
          simpa using Single.intersection hi names
        · cases hb

/-- What a union has a place for. -/
theorem single_of_joins (hs : t.Undivided) (hj : (standard v).Joins position t h) :
    Single v position h ∧ ∀ us, h = .intersection us → (Version.of 8 2).id ≤ v.id := by
  obtain ⟨hbar, hh⟩ := hj
  rcases hint_cases hs hh with ⟨hm, -⟩ | ⟨hs, hi⟩
  · simp only [List.mem_cons, List.not_mem_nil, or_false] at hm
    obtain rfl | rfl | rfl := hm <;> cases hbar
  · refine ⟨hs, fun us hu => ?_⟩
    obtain ⟨ts, rfl⟩ := hi us hu
    exact of_decide_eq_true (Bool.not_eq_false' .. ▸ hbar)

theorem hintParts_of_single (hs : Single v position h) : hintParts h = [h] := by
  cases hs with
  | basic hb => cases hb <;> rfl
  | intersection => rfl

theorem legal_of_unionHint {withNull : Bool}
    (hp : position = .property → (Version.of 7 4).id ≤ v.id) (hu : ∀ t ∈ ts, t.Undivided)
    (hlen : 2 ≤ ts.length)
    (hb : (standard v).unionHint ((standard v).hintsOf position ts) withNull = .ok (some b)) :
    Legal v position b := by
  obtain ⟨hv, hints, hj, hb⟩ := unionHint_eq_some_iff.mp hb
  have hm : ∀ h ∈ hints, Single v position h ∧
      ∀ us, h = .intersection us → (Version.of 8 2).id ≤ v.id := by
    intro h hh
    obtain ⟨t, ht, hj⟩ := exists_of_forall₂ hj h hh
    exact single_of_joins (hu t ht) hj
  have hparts : hints.flatMap hintParts = hints := by
    have hf := List.flatMap_congr fun h hh => hintParts_of_single (hm h hh).1
    simpa using hf
  rw [hparts] at hb
  have hall : ∀ h ∈ (hints ++ nulls withNull).eraseDups, h = .keyword "null" ∨ h ∈ hints := by
    intro h hh
    rcases List.mem_append.mp (List.mem_eraseDups.mp hh) with hh | hh
    · exact .inr hh
    · cases withNull with
      | false => cases hh
      | true => exact .inl (List.mem_singleton.mp hh)
  rcases united?_eq_some_iff.mp hb with he | ⟨htwo, rfl⟩
  · obtain ⟨h, hh⟩ := List.exists_mem_of_length_pos (l := hints) (by have := hj.length_eq; omega)
    have hhb : h ∈ [b] := he ▸ List.mem_eraseDups.mpr (List.mem_append_left _ hh)
    cases List.mem_singleton.mp hhb
    exact (hm _ hh).1.legal hp
  · refine legal_union hp (of_decide_eq_true hv) htwo (nodup_eraseDups _) ?_ ?_
    · exact fun h hh => (hall h hh).imp_right fun hh => (hm h hh).1
    · intro us hus
      rcases hall _ hus with he | hh
      · cases he
      · exact (hm _ hh).2 us rfl

/-- The standard registry declares a type as the language version allows at the position. -/
theorem legal_of_hint (hc : t.Canonical) (hb : (standard v).hint position t = .ok (some b)) :
    Legal v position b := by
  have hr : t.Regular := hc t (mem_subterms_self t)
  have hp := typed_of_hint hb
  cases t with
  | nullable t =>
    obtain ⟨hu, -⟩ := hr
    obtain ⟨-, hb⟩ := hint_eq_some.mp hb
    have hn : ∀ ts, t ≠ .union ts := by
      rintro ts rfl
      exact hu
    rw [shape, hintAs_nullable hn] at hb
    exact legal_of_nullableHint hu hb
  | union ts =>
    obtain ⟨-, -, hu⟩ := hr
    have hu : ∀ t ∈ ts.filter (· != null), t.Undivided :=
      fun t ht => hu t (List.mem_of_mem_filter ht)
    obtain ⟨-, hb⟩ := hint_eq_some.mp hb
    rcases hintAs_union_eq_some_iff.mp hb with ⟨t, hf, -, hb⟩ | ⟨t, hf, -, hb⟩ | ⟨hlen, hb⟩
    · exact legal_of_nullableHint (hu t (hf ▸ List.mem_singleton_self t)) hb
    · exact legal_of_undivided (hu t (hf ▸ List.mem_singleton_self t)) hb
    · exact legal_of_unionHint hp hu hlen hb
  | _ => exact legal_of_undivided (by trivial) hb

theorem legal_of_hint_group :
    let t : PhpType := .union [.null, .intersection [.generic "A" [.nullable (.simple .int)],
      .object .named "B"], .object .static "C", .classString none, .simple .string]
    let b : TypeHint := .union [.intersection [.ofClass "A", .ofClass "B"], .keyword "static",
      .keyword "string", .keyword "null"]
    t.Canonical ∧ (standard (.of 8 2)).hint .result t = .ok (some b) ∧
      Legal (.of 8 2) .result b := by
  intro t b
  have hc : t.Canonical := by decide +kernel
  have hb : (standard (.of 8 2)).hint .result t = .ok (some b) := by decide +kernel
  exact ⟨hc, hb, legal_of_hint hc hb⟩

end Registry

end PhpAtlas
