import Mathlib.Data.List.Nodup
import PhpAtlas.PhpType.OfHint
import PhpAtlas.Proofs.Hint.Spelling
import PhpAtlas.Proofs.Mapping.Compound

/-! # Types and the hints that declare them

The hint of a type that some hint declares is a hint of the same type, except
that null may have moved to the end of a union or be gone next to `mixed`.
-/

namespace PhpAtlas

open HintSyntax

variable {c : HintContext} {v : Version} {position : Position} {t : PhpType} {ts us : List PhpType}
variable {h b : TypeHint}

namespace PhpType

/-! ## Types that hints declare -/

/-- A type that a hint of one token declares. -/
inductive Plain (c : HintContext) : PhpType → Prop
  | simple (s : SimpleType) : Plain c (.simple s)
  | array : Plain c anyArray
  | iterable : Plain c (.iterable mixed)
  | self {name : String} (hc : c.className = some name) : Plain c (.object .self name)
  | static {name : String} (hc : c.className = some name) : Plain c (.object .static name)
  | parent {name : String} (hc : c.parentClassName = some name) : Plain c (.object .parent name)
  | named (name : String) : Plain c (ofClass name)

/-- A type that a member of a written union declares. -/
inductive Part (c : HintContext) : PhpType → Prop
  | plain {t : PhpType} (hp : Plain c t) : Part c t
  | intersection {ts : List PhpType} (hp : ∀ t ∈ ts, Plain c t) : Part c (.intersection ts)

theorem plain_surrounding {form : ClassReference} {o : Option String}
    (hn : ∀ name, o = some name → Plain c (.object form name)) : Plain c (surrounding form o) := by
  cases o with
  | none => exact .simple _
  | some name => exact hn name rfl

theorem plain_ofKeyword (s : String) : Plain c (ofKeyword c s) := by
  unfold ofKeyword
  split
  all_goals first
    | exact .simple _
    | exact .array
    | exact .iterable
    | exact plain_surrounding fun _ => .self
    | exact plain_surrounding fun _ => .static
    | exact plain_surrounding fun _ => .parent

theorem plain_of_leaf (hl : Leaf h) : Plain c (ofHint c h) := by
  obtain ⟨u, hu⟩ := hl.exists_token
  cases hu with
  | static | builtIn => exact plain_ofKeyword _
  | unqualified | qualified | fullyQualified =>
    rw [ofHint]
    split
    · exact plain_ofKeyword _
    · exact .named _

theorem ofHints_eq_map (c : HintContext) (hs : List TypeHint) : ofHints c hs = hs.map (ofHint c) := by
  induction hs with
  | nil => rfl
  | cons h hs ih => rw [ofHints, ih, List.map_cons]

theorem part_of_operand (ho : Operand h) : Part c (ofHint c h) := by
  cases ho with
  | leaf hl => exact .plain (plain_of_leaf hl)
  | intersection hl =>
    rw [ofHint, ofHints_eq_map]
    refine .intersection fun t ht => ?_
    obtain ⟨h, hh, rfl⟩ := List.mem_map.mp ht
    exact plain_of_leaf (hl h hh)

theorem Part.parts (hp : Part c t) : t.parts = [t] := by
  cases hp with
  | plain hp => cases hp <;> rfl
  | intersection => rfl

theorem flatMap_parts (hp : ∀ t ∈ ts, Part c t) : ts.flatMap PhpType.parts = ts := by
  have hf := List.flatMap_congr fun t ht => (hp t ht).parts
  simpa using hf

theorem unite_of_eraseDups_eq_singleton (hp : ∀ t ∈ ts, Part c t) (he : ts.eraseDups = [t]) :
    unite ts = t := by
  simp [unite, flatMap_parts hp, he]

theorem unite_of_two_le (hp : ∀ t ∈ ts, Part c t) (hlen : 2 ≤ ts.eraseDups.length) :
    unite ts = .union ts.eraseDups := by
  match he : ts.eraseDups with
  | [] | [_] => simp [he] at hlen
  | _ :: _ :: _ => simp [unite, flatMap_parts hp, he]

end PhpType

open Registry

namespace PhpType

/-! ## Members -/

/-- A hint of one token. -/
inductive Flat : TypeHint → Prop
  | keyword (s : String) : Flat (.keyword s)
  | name (n : WrittenName) : Flat (.name n)

theorem Plain.hint (hp : Plain c t) (hb : (standard v).hint position t = .ok (some b)) :
    ofHint c b = t ∧ Flat b := by
  obtain ⟨-, hb⟩ := hint_eq_some.mp hb
  cases hp with
  | simple s =>
    obtain ⟨hs, rfl⟩ := keywordIf_eq_some hb
    refine ⟨?_, .keyword _⟩
    cases s with
    | null | resource => cases hs
    | _ => rfl
  | array =>
    cases hb
    exact ⟨rfl, .keyword _⟩
  | iterable =>
    obtain ⟨-, rfl⟩ := keywordIf_eq_some hb
    exact ⟨rfl, .keyword _⟩
  | self hc =>
    cases hb
    exact ⟨by simp [ofHint, ofKeyword, surrounding, hc], .keyword _⟩
  | static hc =>
    obtain ⟨-, rfl⟩ := keywordIf_eq_some hb
    exact ⟨by simp [ofHint, ofKeyword, surrounding, hc], .keyword _⟩
  | parent hc =>
    cases hb
    exact ⟨by simp [ofHint, ofKeyword, surrounding, hc], .keyword _⟩
  | named name =>
    cases hb
    refine ⟨?_, .name _⟩
    simp [TypeHint.ofClass, ofHint, WrittenName.isRelative, Scope.resolveClass, ofClass,
      dropLeadingBackslashes_idem]

theorem ofHints_of_intersectionParts {bs : List TypeHint} (hp : ∀ t ∈ ts, Plain c t)
    (hb : intersectionParts ((standard v).hintsOf position ts) = .ok (some bs)) :
    ofHints c bs = ts := by
  induction ts generalizing bs with
  | nil =>
    cases hb
    rfl
  | cons t ts ih =>
    obtain ⟨ht, hts⟩ := List.forall_mem_cons.mp hp
    obtain ⟨own, ho, hb⟩ := exists_of_bind_eq_ok hb
    split at hb
    · obtain ⟨rest, hr, hb⟩ := exists_of_bind_eq_ok hb
      cases rest with
      | none => cases hb
      | some rest =>
        cases hb
        rw [ofHints, (ht.hint ho).1, ih hts hr]
    · cases hb

/-- The hint of a member declares the member. Two such hints do not run together. -/
theorem Part.hint (hp : Part c t) (hb : (standard v).hint position t = .ok (some b)) :
    ofHint c b = t ∧ (Flat b ∨ ∃ bs, b = .intersection bs) := by
  cases hp with
  | plain hp =>
    obtain ⟨ht, hf⟩ := hp.hint hb
    exact ⟨ht, .inl hf⟩
  | intersection hp =>
    obtain ⟨-, hb⟩ := hint_eq_some.mp hb
    rw [shape, hintAs] at hb
    split at hb
    · cases hb
    · obtain ⟨found, hf, hb⟩ := exists_of_bind_eq_ok hb
      cases found with
      | none => cases hb
      | some bs =>
        cases hb
        exact ⟨by rw [ofHint, ofHints_of_intersectionParts hp hf], .inr ⟨bs, rfl⟩⟩

theorem Part.hintParts (hp : Part c t) (hb : (standard v).hint position t = .ok (some b)) :
    hintParts b = [b] := by
  rcases (hp.hint hb).2 with hf | ⟨bs, rfl⟩
  · cases hf <;> rfl
  · rfl

/-! ## Unions -/

theorem ofHints_of_unionParts {bs : List TypeHint} (hp : ∀ t ∈ ts, Part c t)
    (hb : (standard v).unionParts ((standard v).hintsOf position ts) = .ok (some bs)) :
    ofHints c bs = ts := by
  induction ts generalizing bs with
  | nil =>
    cases hb
    rfl
  | cons t ts ih =>
    obtain ⟨ht, hts⟩ := List.forall_mem_cons.mp hp
    rw [hintsOf_cons, unionParts] at hb
    split at hb
    · cases hb
    · obtain ⟨own, ho, hb⟩ := exists_of_bind_eq_ok hb
      cases own with
      | none => cases hb
      | some own =>
        obtain ⟨rest, hr, hb⟩ := exists_of_bind_eq_ok hb
        cases rest with
        | none => cases hb
        | some rest =>
          cases hb
          simp only [ht.hintParts ho, List.singleton_append, ofHints, (ht.hint ho).1, ih hts hr]

theorem nodup_append_nulls {found : List TypeHint} {withNull : Bool}
    (hf : ofHints c found = ts) (hd : ts.Nodup) (hn : null ∉ ts) :
    (found ++ nulls withNull).Nodup := by
  rw [ofHints_eq_map] at hf
  subst hf
  apply List.Nodup.append (.of_map _ hd)
  · cases withNull <;> simp [nulls]
  · intro b hb hm
    cases withNull with
    | false => simp [nulls] at hm
    | true =>
      obtain rfl : b = .keyword "null" := by simpa [nulls] using hm
      exact hn (List.mem_map_of_mem hb)

/-- Different types without null have different hints, which make a union with null at its end. -/
theorem exists_of_unionHint {withNull : Bool} (hp : ∀ t ∈ ts, Part c t) (hd : ts.Nodup)
    (hn : null ∉ ts) (hlen : 2 ≤ ts.length)
    (hb : (standard v).unionHint ((standard v).hintsOf position ts) withNull = .ok (some b)) :
    ∃ found, b = .union (found ++ nulls withNull) ∧ ofHints c found = ts := by
  obtain ⟨-, hints, hj, hb⟩ := unionHint_eq_some_iff.mp hb
  have hf := unionParts_eq_some_iff.mpr ⟨hints, hj, rfl⟩
  have hts : ofHints c (hints.flatMap hintParts) = ts := ofHints_of_unionParts hp hf
  have he : (hints.flatMap hintParts ++ nulls withNull).eraseDups = _ :=
    eraseDups_of_nodup (nodup_append_nulls hts hd hn)
  have hfound : 2 ≤ (hints.flatMap hintParts).length := by simpa [← hts, ofHints_eq_map] using hlen
  refine ⟨_, ?_, hts⟩
  rcases united?_eq_some_iff.mp hb with hone | ⟨-, rfl⟩
  · have := congrArg List.length (he.symm.trans hone)
    simp only [List.length_append, List.length_singleton] at this
    omega
  · rw [he]

theorem hint_union (hu : untyped v position = false) :
    (standard v).hint position (.union ts) =
      match ts.filter (· != null) with
      | [] => .ok none
      | [t] =>
          if null ∈ ts then (standard v).nullableHint t ((standard v).hint position t)
          else (standard v).hint position t
      | rest => (standard v).unionHint ((standard v).hintsOf position rest) (decide (null ∈ ts)) := by
  rw [hint_standard, hu, if_neg Bool.false_ne_true]
  exact hintAs_union

/-! ## Types and null -/

/-- The members of a type other than null; a type that is no union is one by itself. -/
def nonNullMembers (t : PhpType) : List PhpType := t.parts.filter (· != null)

/-- The types differ at most in how they say what they are made of. -/
structure SameMembers (s t : PhpType) : Prop where
  null : s.admitsNull = t.admitsNull
  members : ∀ m, m ∈ s.nonNullMembers ↔ m ∈ t.nonNullMembers

theorem anyNullable_eq_any (ts : List PhpType) : anyNullable ts = ts.any admitsNull := by
  induction ts with
  | nil => rfl
  | cons t ts ih => rw [anyNullable, ih, List.any_cons]

theorem sameMembers_union (hm : ∀ m, m ∈ ts ↔ m ∈ us) : SameMembers (.union ts) (.union us) := by
  constructor
  · rw [admitsNull, admitsNull, anyNullable_eq_any, anyNullable_eq_any, Bool.eq_iff_iff]
    simp only [List.any_eq_true, hm]
  · intro m
    simp only [nonNullMembers, parts, List.mem_filter, hm]

/-- The hint `b` of the type declares a type with the same members and with the same hint. -/
structure Stable (v : Version) (position : Position) (c : HintContext) (t : PhpType)
    (b : TypeHint) : Prop where
  same : SameMembers (ofHint c b) t
  hint : (standard v).hint position (ofHint c b) = .ok (some b)

theorem stable_of_eq (he : ofHint c b = t) (hb : (standard v).hint position t = .ok (some b)) :
    Stable v position c t b := by
  subst he
  exact ⟨⟨rfl, fun _ => Iff.rfl⟩, hb⟩

theorem unite_of_nodup (hp : ∀ t ∈ ts, Part c t) (hd : ts.Nodup) (hlen : 2 ≤ ts.length) :
    unite ts = .union ts := by
  have he := eraseDups_of_nodup hd
  rw [unite_of_two_le hp (he.symm ▸ hlen), he]

theorem part_null : Part c null := .plain (.simple .null)

theorem orNull_of_part (hp : Part c t) (hm : t ≠ mixed) (hn : t ≠ null) :
    orNull t = .nullable t := by
  cases hp with
  | intersection => rfl
  | plain hp =>
    cases hp with
    | simple s =>
      cases s with
      | mixed => exact absurd rfl hm
      | null => exact absurd rfl hn
      | _ => rfl
    | _ => rfl

/-- A hint of a member or null declares the member or null. -/
theorem exists_of_nullableHint (hp : Part c t) (hn : t ≠ null)
    (hb : (standard v).nullableHint t ((standard v).hint position t) = .ok (some b)) :
    t = mixed ∧ (standard v).hint position t = .ok (some b) ∨
      ofHint c b = .nullable t ∨ ofHint c b = .union [t, null] := by
  unfold nullableHint at hb
  split at hb
  · exact .inl ⟨rfl, hb⟩
  · cases hb
  · cases hb
  · cases hb
  · next hmixed _ _ _ =>
    right
    split at hb
    · obtain ⟨own, ho, hb⟩ := exists_of_bind_eq_ok hb
      cases own with
      | none => cases hb
      | some own =>
        obtain ⟨ht, hf⟩ := hp.hint ho
        rcases hf with hf | ⟨bs, rfl⟩
        · have hb : b = .nullable own := by
            cases hf <;> (cases hb; rfl)
          rw [hb, ofHint, ht, orNull_of_part hp (fun he => hmixed he) hn]
          exact .inl rfl
        · rw [Option.bind_some, hintOrNull] at hb
          split at hb
          · cases hb
            have hu : unite [t, null] = .union [t, null] := by
              apply unite_of_nodup (c := c)
              · simpa using ⟨hp, part_null⟩
              · simpa using hn
              · exact le_rfl
            rw [ofHint, ofHints, ofHints, ofHints, ht]
            exact .inr hu
          · cases hb
    · cases hb

theorem hint_nullable (hu : untyped v position = false) (hp : Part c t) :
    (standard v).hint position (.nullable t) =
      (standard v).nullableHint t ((standard v).hint position t) := by
  rw [hint_standard, hu, if_neg Bool.false_ne_true, shape, hintAs_nullable]
  rintro ts rfl
  cases hp with
  | plain hp => cases hp

/-- What declares a member or null has a stable hint. -/
theorem stable_of_nullableHint {s : PhpType} (hu : untyped v position = false) (hp : Part c t)
    (hn : t ≠ null)
    (hb : (standard v).nullableHint t ((standard v).hint position t) = .ok (some b))
    (hs : s.admitsNull = true) (hm : ∀ m, m ∈ s.nonNullMembers ↔ m = t) :
    Stable v position c s b := by
  rcases exists_of_nullableHint hp hn hb with ⟨rfl, ho⟩ | he | he
  · obtain ⟨he, -⟩ := hp.hint ho
    refine ⟨⟨?_, fun m => ?_⟩, he ▸ ho⟩
    · rw [he, hs]
      rfl
    · rw [he, hm]
      simp [nonNullMembers, parts, mixed, null]
  · refine ⟨⟨?_, fun m => ?_⟩, ?_⟩
    · rw [he, hs]
      rfl
    · rw [he, hm]
      simp [nonNullMembers, parts, hn]
    · rw [he, hint_nullable hu hp, hb]
  · have hf : [t, null].filter (· != null) = [t] := by simp [hn]
    refine ⟨⟨?_, fun m => ?_⟩, ?_⟩
    · rw [he, hs]
      simp [admitsNull, anyNullable, null]
    · rw [he, hm]
      simp [nonNullMembers, parts, hn]
    · rw [he, hint_union hu, hf]
      simpa using hb

theorem stable_of_part (hp : Part c t) (hb : (standard v).hint position t = .ok (some b)) :
    Stable v position c t b :=
  stable_of_eq (hp.hint hb).1 hb

/-- The members of a union with null at the end, if it is one of them. -/
def nullLast (ts : List PhpType) : List PhpType :=
  ts.filter (· != null) ++ if null ∈ ts then [null] else []

theorem mem_nullLast {m : PhpType} : m ∈ nullLast ts ↔ m ∈ ts := by
  by_cases hm : m = null
  · subst hm
    by_cases hn : null ∈ ts <;> simp [nullLast, hn]
  · by_cases hn : null ∈ ts <;> simp [nullLast, hn, hm]

theorem filter_nullLast : (nullLast ts).filter (· != null) = ts.filter (· != null) := by
  by_cases hn : null ∈ ts <;> simp [nullLast, hn]

theorem nodup_nullLast (hd : ts.Nodup) : (nullLast ts).Nodup := by
  apply List.Nodup.append (hd.filter _)
  · split <;> simp
  · intro m hm hn
    split at hn
    · obtain rfl : m = null := by simpa using hn
      simp at hm
    · cases hn

theorem ofHints_append (hs hs' : List TypeHint) :
    ofHints c (hs ++ hs') = ofHints c hs ++ ofHints c hs' := by
  simp [ofHints_eq_map]

/-- The hint of a union of at least two members puts null at the end. -/
theorem stable_of_unionHint (hu : untyped v position = false) (hp : ∀ t ∈ ts, Part c t)
    (hd : ts.Nodup) (hlen : 2 ≤ (ts.filter (· != null)).length)
    (hh : (standard v).hint position (.union ts) = .ok (some b))
    (hb : (standard v).unionHint ((standard v).hintsOf position (ts.filter (· != null)))
      (decide (null ∈ ts)) = .ok (some b)) : Stable v position c (.union ts) b := by
  obtain ⟨found, rfl, hf⟩ := exists_of_unionHint (fun t ht => hp t (List.mem_of_mem_filter ht))
    (hd.filter _) (by simp) hlen hb
  have hparts : ofHints c (found ++ nulls (decide (null ∈ ts))) = nullLast ts := by
    rw [ofHints_append, hf, nullLast]
    by_cases hn : null ∈ ts <;> simp [hn, nulls, ofHints, ofHint, ofKeyword]
  have he : ofHint c (.union (found ++ nulls (decide (null ∈ ts)))) = .union (nullLast ts) := by
    rw [ofHint, hparts]
    apply unite_of_nodup (fun t ht => hp t (mem_nullLast.mp ht)) (nodup_nullLast hd)
    exact hlen.trans (by simp [nullLast])
  constructor
  · rw [he]
    exact sameMembers_union fun m => mem_nullLast
  · rw [he, ← hh, hint_union hu, hint_union hu, filter_nullLast]
    simp only [mem_nullLast]

theorem stable_of_union (hp : ∀ t ∈ ts, Part c t) (hd : ts.Nodup) (hlen : 2 ≤ ts.length)
    (hb : (standard v).hint position (.union ts) = .ok (some b)) :
    Stable v position c (.union ts) b := by
  have hu : untyped v position = false := (hint_eq_some.mp hb).1
  have hh := hb
  rw [hint_union hu] at hb
  match hf : ts.filter (· != null) with
  | [] =>
    rw [hf] at hb
    cases hb
  | [t] =>
    have hmem : t ∈ ts.filter (· != null) := hf ▸ List.mem_singleton_self t
    obtain ⟨ht, hne⟩ := List.mem_filter.mp hmem
    have hn : null ∈ ts := by
      by_contra hn
      have hself : ts.filter (· != null) = ts := by
        apply List.filter_eq_self.mpr
        rintro m hm
        rw [bne_iff_ne]
        rintro rfl
        exact hn hm
      rw [hself] at hf
      simp [hf] at hlen
    simp only [hf, if_pos hn] at hb
    refine stable_of_nullableHint hu (hp t ht) (bne_iff_ne.mp hne) hb ?_ fun m => ?_
    · rw [admitsNull, anyNullable_eq_any]
      exact List.any_eq_true.mpr ⟨null, hn, rfl⟩
    · rw [nonNullMembers, parts, hf, List.mem_singleton]
  | x :: y :: rest =>
    refine stable_of_unionHint hu hp hd (by simp [hf]) hh ?_
    simpa only [hf] using hb

theorem stable_of_written {a : TypeHint} (ha : Written a)
    (hb : (standard v).hint position (ofHint c a) = .ok (some b)) :
    Stable v position c (ofHint c a) b := by
  cases ha with
  | @nullable h hl =>
    have hp : Plain c (ofHint c h) := plain_of_leaf hl
    rw [ofHint] at hb ⊢
    by_cases hm : ofHint c h = mixed
    · rw [hm] at hb ⊢
      exact stable_of_part (.plain (.simple .mixed)) hb
    · by_cases hn : ofHint c h = null
      · rw [hn] at hb ⊢
        exact stable_of_part part_null hb
      · rw [orNull_of_part (.plain hp) hm hn] at hb ⊢
        have hu : untyped v position = false := (hint_eq_some.mp hb).1
        rw [hint_nullable hu (.plain hp)] at hb
        refine stable_of_nullableHint hu (.plain hp) hn hb rfl fun m => ?_
        simp [nonNullMembers, parts, hn]
  | operand ho => exact stable_of_part (part_of_operand ho) hb
  | @union first second rest ho =>
    have hp : ∀ t ∈ ofHints c (first :: second :: rest), Part c t := by
      rw [ofHints_eq_map]
      intro t ht
      obtain ⟨h, hh, rfl⟩ := List.mem_map.mp ht
      exact part_of_operand (ho h hh)
    have hp' : ∀ t ∈ (ofHints c (first :: second :: rest)).eraseDups, Part c t :=
      fun t ht => hp t (List.mem_eraseDups.mp ht)
    have hd := nodup_eraseDups (ofHints c (first :: second :: rest))
    rw [ofHint] at hb ⊢
    match he : (ofHints c (first :: second :: rest)).eraseDups with
    | [] =>
      rw [ofHints, List.eraseDups_cons] at he
      cases he
    | [t] =>
      rw [unite_of_eraseDups_eq_singleton hp he] at hb ⊢
      exact stable_of_part (hp' t (he ▸ List.mem_singleton_self t)) hb
    | x :: y :: others =>
      have hlen : 2 ≤ (ofHints c (first :: second :: rest)).eraseDups.length := by simp [he]
      rw [unite_of_two_le hp hlen] at hb ⊢
      exact stable_of_union hp' hd hlen hb

/-- What a hint declares has a hint, if any, that declares the same up to the place of null, and
that is its own hint. -/
theorem hint_ofHint_stable {text : List Char} {a : TypeHint} (hp : TypeHint.parse text = .ok a)
    (hb : (standard v).hint position (ofHint c a) = .ok (some b)) :
    (ofHint c b).admitsNull = (ofHint c a).admitsNull ∧
    (∀ m, m ∈ (ofHint c b).nonNullMembers ↔ m ∈ (ofHint c a).nonNullMembers) ∧
    (standard v).hint position (ofHint c b) = .ok (some b) := by
  obtain ⟨⟨hn, hm⟩, hh⟩ := stable_of_written (TypeHint.written_of_parse hp) hb
  exact ⟨hn, hm, hh⟩

theorem hint_ofHint_stable_nullFirst :
    let c : HintContext := { scope := { namespaceName := some "App" }, className := some "App\\K" }
    let b : TypeHint := .union [.name ⟨"App\\A", .fullyQualified⟩, .keyword "self", .keyword "null"]
    (ofHint c b).admitsNull = true ∧
    (∀ m, m ∈ (ofHint c b).nonNullMembers ↔
      m ∈ [.object .named "App\\A", .object .self "App\\K"]) ∧
    (standard (.of 8 3)).hint .param (ofHint c b) = .ok (some b) := by
  intro c b
  let a : TypeHint := .union [.keyword "null", .name ⟨"A", .unqualified⟩, .keyword "self"]
  have hp : TypeHint.parse "null|A|self".toList = .ok a := by decide +kernel
  have hb : (standard (.of 8 3)).hint .param (ofHint c a) = .ok (some b) := by decide +kernel
  have hn : (ofHint c a).admitsNull = true := by decide +kernel
  have hm : (ofHint c a).nonNullMembers = [.object .named "App\\A", .object .self "App\\K"] := by
    decide +kernel
  have hs := hint_ofHint_stable hp hb
  rwa [hn, hm] at hs

end PhpType

end PhpAtlas
