import PhpAtlas.Proofs.Mapping.Forms
import PhpAtlas.Proofs.Mapping.Legality

/-! # Repeated members

A registry drops the repeated members of a union, and then writes null at the end of a union
that is nullable without another look. So null is repeated where it was a member already. In a
documentation form unions stay inside of unions and can say the same as members beside them; in
a hint they are flattened first.
-/

namespace PhpAtlas

/-! ## Unions in hints -/

namespace TypeHint

variable {q : List TypeHint → Prop} {h b : TypeHint} {hs : List TypeHint}

/-- The members of each union in the hint keep the rule. -/
def EachUnion (q : List TypeHint → Prop) (b : TypeHint) : Prop :=
  ∀ hs, union hs ∈ b.subhints → q hs

/-- The hint is neither a union nor nullable, and has only names in it. -/
def Undivided : TypeHint → Prop
  | union _ | nullable _ => False
  | intersection hs => ∀ h ∈ hs, ∃ n, h = name n
  | keyword _ | name _ => True

/-- Nothing stands in a union or is nullable but an undivided hint. -/
def Flat : TypeHint → Prop
  | union hs => ∀ h ∈ hs, h.Undivided
  | nullable h => h.Undivided
  | h => h.Undivided

theorem flat_of_undivided (hu : h.Undivided) : h.Flat := by
  cases h with
  | union | nullable => exact hu.elim
  | _ => exact hu

theorem union_not_mem_subhints (hu : h.Undivided) : union hs ∉ h.subhints := by
  cases h with
  | union | nullable => exact hu.elim
  | keyword | name => simp [subhints]
  | intersection ks =>
    simp only [subhints, List.mem_cons, reduceCtorEq, false_or, mem_subhintsOf]
    rintro ⟨k, hk, hm⟩
    obtain ⟨n, rfl⟩ := hu k hk
    simp [subhints] at hm

/-- In a flat hint the only union is the hint itself. -/
theorem eachUnion_iff (hf : b.Flat) : b.EachUnion q ↔ ∀ hs, b = union hs → q hs := by
  have hmem (hs : List TypeHint) : union hs ∈ b.subhints ↔ b = union hs := by
    refine ⟨fun hm => ?_, fun hb => hb ▸ mem_subhints_self b⟩
    cases b with
    | union ks =>
      rcases List.mem_cons.mp hm with hm | hm
      · exact hm.symm
      · obtain ⟨k, hk, hm⟩ := mem_subhintsOf.mp hm
        exact absurd hm (union_not_mem_subhints (hf k hk))
    | nullable h =>
      rcases List.mem_cons.mp hm with hm | hm
      · cases hm
      · exact absurd hm (union_not_mem_subhints hf)
    | _ => exact absurd hm (union_not_mem_subhints hf)
  simp only [EachUnion, hmem]

end TypeHint

namespace Registry

open PhpType (mixed null)

variable {r : Registry} {v : Version} {position : Position} {t : PhpType} {ts us : List PhpType}
variable {h b : TypeHint} {hs : List TypeHint}

theorem flat_of_hintOrNull (hf : h.Flat) (hb : r.hintOrNull h = some b) : b.Flat := by
  have hnull : (TypeHint.keyword "null").Undivided := trivial
  cases h with
  | keyword | name =>
    cases hb
    trivial
  | nullable =>
    cases hb
    exact hf
  | union hs =>
    cases hb
    exact List.forall_mem_append.mpr ⟨hf, List.forall_mem_singleton.mpr hnull⟩
  | intersection hs =>
    rw [hintOrNull] at hb
    split at hb
    · cases hb
      exact List.forall_mem_cons.mpr ⟨hf, List.forall_mem_singleton.mpr hnull⟩
    · cases hb

theorem undivided_of_mem_hintParts (hf : b.Flat) (hh : h ∈ hintParts b) : h.Undivided := by
  cases b with
  | union => exact hf h hh
  | nullable =>
    rcases List.mem_pair.mp hh with rfl | rfl
    · exact hf
    · trivial
  | _ =>
    obtain rfl := List.mem_singleton.mp hh
    exact hf

/-- The hint of several types with flat hints is one hint or a union of different ones. -/
theorem unionHint_cases {withNull : Bool}
    (ih : ∀ t ∈ ts, ∀ h, r.hint position t = .ok (some h) → h.Flat)
    (hb : r.unionHint (r.hintsOf position ts) withNull = .ok (some b)) :
    b.Undivided ∨ ∃ hs, b = .union hs ∧ hs.Nodup ∧ ∀ h ∈ hs, h.Undivided := by
  obtain ⟨-, hints, hj, hb⟩ := unionHint_eq_some_iff.mp hb
  have hall : ∀ h ∈ (hints.flatMap hintParts ++ nulls withNull).eraseDups, h.Undivided := by
    intro h hh
    rcases List.mem_append.mp (List.mem_eraseDups.mp hh) with hh | hh
    · obtain ⟨b, hb, hh⟩ := List.mem_flatMap.mp hh
      obtain ⟨t, ht, -, hb⟩ := exists_of_forall₂ hj b hb
      exact undivided_of_mem_hintParts (ih t ht b hb) hh
    · cases withNull with
      | false => cases hh
      | true =>
        obtain rfl := List.mem_singleton.mp hh
        trivial
  rcases united?_eq_some_iff.mp hb with he | ⟨-, rfl⟩
  · exact .inl (hall b (he ▸ List.mem_singleton_self b))
  · exact .inr ⟨_, rfl, nodup_eraseDups _, hall⟩

theorem flat_of_unionHint {withNull : Bool}
    (ih : ∀ t ∈ ts, ∀ h, r.hint position t = .ok (some h) → h.Flat)
    (hb : r.unionHint (r.hintsOf position ts) withNull = .ok (some b)) : b.Flat := by
  rcases unionHint_cases ih hb with hu | ⟨hs, rfl, -, hall⟩
  · exact TypeHint.flat_of_undivided hu
  · exact hall

theorem undivided_of_hint (hu : t.Undivided) (hb : (standard v).hint position t = .ok (some b)) :
    b.Undivided := by
  rcases hint_cases hu hb with ⟨-, s, -, rfl⟩ | ⟨hs, -⟩
  · trivial
  · cases hs with
    | basic hb => cases hb <;> trivial
    | intersection _ names =>
      intro h hh
      obtain ⟨n, -, rfl⟩ := List.mem_map.mp hh
      exact ⟨n, rfl⟩

/-- The standard registry declares no union or nullable type inside of another one. -/
theorem flat_of_hint (hb : (standard v).hint position t = .ok (some b)) : b.Flat := by
  refine hint_induct (fun _ _ _ _ => trivial) ?_ ?_ ?_ trivial hb
  · exact fun t b _ hu _ hb => TypeHint.flat_of_undivided (undivided_of_hint hu hb)
  · exact fun h b hh hb => flat_of_hintOrNull hh hb
  · exact fun ts withNull b ih hb => flat_of_unionHint ih hb

/-! ## Null in hints of unions -/

/-- What a hint says of null if it is the hint of a union with null. -/
def NullShown : TypeHint → Prop
  | .union hs => .keyword "null" ∈ hs
  | .intersection _ => False
  | _ => True

/-- The type is the union of null and another union. -/
def NullBeside (us : List PhpType) (t : PhpType) : Prop :=
  t = .union [.union us, null] ∨ t = .union [null, .union us]

theorem nullShown_of_hintOrNull (hb : r.hintOrNull h = some b) : NullShown b := by
  cases h with
  | keyword | name | nullable =>
    cases hb
    trivial
  | union hs =>
    cases hb
    simp [NullShown]
  | intersection hs =>
    rw [hintOrNull] at hb
    split at hb
    · cases hb
      simp [NullShown]
    · cases hb

theorem nullShown_of_mem (hn : null ∈ ts)
    (hb : (standard v).hint position (.union ts) = .ok (some b)) : NullShown b := by
  obtain ⟨-, hb⟩ := hint_eq_some.mp hb
  rcases hintAs_union_eq_some_iff.mp hb with ⟨t, -, -, hb⟩ | ⟨t, -, hne, -⟩ | ⟨-, hb⟩
  · rcases nullableHint_eq_some_iff.mp hb with ⟨rfl, hb⟩ | ⟨-, -, h, -, hb⟩
    · obtain ⟨-, rfl⟩ := keywordIf_eq_some (hint_eq_some.mp hb).2
      trivial
    · exact nullShown_of_hintOrNull hb
  · exact absurd hn hne
  · obtain ⟨-, hints, -, hb⟩ := unionHint_eq_some_iff.mp hb
    have hmem : .keyword "null" ∈
        (hints.flatMap hintParts ++ nulls (decide (null ∈ ts))).eraseDups := by
      simp [List.mem_eraseDups, nulls, hn]
    rcases united?_eq_some_iff.mp hb with he | ⟨-, rfl⟩
    · obtain rfl := List.mem_singleton.mp (he ▸ hmem)
      trivial
    · exact hmem

theorem null_not_mem_hint (hd : (PhpType.union ts).Distinct) (hn : null ∉ ts)
    (hb : (standard v).hint position (.union ts) = .ok (some (.union hs))) :
    .keyword "null" ∉ hs := by
  have hlen : 2 ≤ ts.length := hd.1
  have hb := hintAs_union_eq_some_iff.mp (hint_eq_some.mp hb).2
  rw [PhpType.filter_ne_null hn] at hb
  rcases hb with ⟨t, -, hm, -⟩ | ⟨t, rfl, -⟩ | ⟨-, hb⟩
  · exact absurd hm hn
  · simp at hlen
  · obtain ⟨-, hints, hj, hb⟩ := unionHint_eq_some_iff.mp hb
    have hsingle : ∀ h ∈ hints, TypeHint.Single v position h := by
      intro h hh
      obtain ⟨t, ht, hj⟩ := exists_of_forall₂ hj h hh
      exact (single_of_joins (PhpType.undivided_of_mem hd hn ht) hj).1
    have hmem : ∀ h ∈ (hints.flatMap hintParts ++ nulls (decide (null ∈ ts))).eraseDups,
        TypeHint.Single v position h := by
      intro h hh
      simp only [List.mem_eraseDups, nulls, hn, decide_false, Bool.false_eq_true, if_false,
        List.append_nil, List.mem_flatMap] at hh
      obtain ⟨k, hk, hh⟩ := hh
      rw [hintParts_of_single (hsingle k hk), List.mem_singleton] at hh
      exact hh ▸ hsingle k hk
    rcases united?_eq_some_iff.mp hb with he | ⟨-, he⟩
    · cases hmem _ (he ▸ List.mem_singleton_self _) with
      | basic hb => cases hb
    · obtain rfl := TypeHint.union.inj he
      intro hnull
      exact (hmem _ hnull).keyword_notMem List.mem_cons_self (TypeHint.mem_subhints_self _)

theorem hintOrNull_eq_union (hb : r.hintOrNull h = some (.union hs)) :
    (∃ ks, h = .union ks ∧ hs = ks ++ [.keyword "null"]) ∨
      ∃ ks, h = .intersection ks ∧ hs = [.intersection ks, .keyword "null"] := by
  cases h with
  | keyword | name | nullable => cases hb
  | union ks =>
    cases hb
    exact .inl ⟨ks, rfl, rfl⟩
  | intersection ks =>
    rw [hintOrNull] at hb
    split at hb
    · cases hb
      exact .inr ⟨ks, rfl, rfl⟩
    · cases hb

theorem nodup_of_nullableHint (hu : t.Undivided)
    (hb : (standard v).nullableHint t ((standard v).hint position t) = .ok (some (.union hs))) :
    hs.Nodup := by
  rcases nullableHint_eq_some_iff.mp hb with ⟨-, hb⟩ | ⟨-, -, h, hh, hb⟩
  · exact (undivided_of_hint hu hb).elim
  · rcases hintOrNull_eq_union hb with ⟨ks, rfl, -⟩ | ⟨ks, rfl, rfl⟩
    · exact (undivided_of_hint hu hh).elim
    · simp

theorem nodup_of_unionHint {withNull : Bool} (hb : (standard v).unionHint
      ((standard v).hintsOf position ts) withNull = .ok (some (.union hs))) : hs.Nodup := by
  rcases unionHint_cases (fun _ _ _ => flat_of_hint) hb with hu | ⟨hs, ⟨⟩, hd, -⟩
  · exact hu.elim
  · exact hd

/-- Beside another union null is added to the hint of that union. -/
theorem exists_of_nullBeside (ht : NullBeside us t)
    (hb : (standard v).hint position t = .ok (some b)) :
    ∃ h, (standard v).hint position (.union us) = .ok (some h) ∧
      (standard v).hintOrNull h = some b := by
  obtain ⟨ts, rfl, hf, hn⟩ :
      ∃ ts, t = .union ts ∧ ts.filter (· != null) = [.union us] ∧ null ∈ ts := by
    rcases ht with rfl | rfl <;> exact ⟨_, rfl, rfl, by simp⟩
  rcases hintAs_union_eq_some_iff.mp (hint_eq_some.mp hb).2 with
    ⟨u, hu, -, hb⟩ | ⟨-, -, hne, -⟩ | ⟨hlen, -⟩
  · obtain rfl : .union us = u := by simpa [hf] using hu
    rcases nullableHint_eq_some_iff.mp hb with ⟨⟨⟩, -⟩ | ⟨-, -, h⟩
    exact h
  · exact absurd hn hne
  · simp [hf] at hlen

/-- The members of a hint are different, but null is written after those of a union that is the
other member of the type. -/
theorem hint_union_cases (hd : t.Distinct)
    (hb : (standard v).hint position t = .ok (some (.union hs))) :
    hs.Nodup ∨ ∃ us ks, NullBeside us t ∧
      (standard v).hint position (.union us) = .ok (some (.union ks)) ∧
      hs = ks ++ [.keyword "null"] := by
  rcases PhpType.form_cases t with hu | ⟨ts, rfl⟩ | ⟨u, rfl⟩
  · exact (undivided_of_hint hu hb).elim
  · rcases hintAs_union_eq_some_iff.mp (hint_eq_some.mp hb).2 with
      ⟨u, hf, -, hn⟩ | ⟨u, hf, hn, -⟩ | ⟨-, hn⟩
    · have hmem : u ∈ ts.filter (· != null) := hf ▸ List.mem_singleton_self u
      rcases hd.2.2 u (List.mem_of_mem_filter hmem) with hu | ⟨⟨us, rfl⟩, -⟩
      · exact .inl (nodup_of_nullableHint hu hn)
      · have ht : NullBeside us (.union ts) :=
          (PhpType.eq_of_filter_ne_null hd.1 hd.2.1 hf).imp (congrArg _) (congrArg _)
        obtain ⟨h, hh, hb⟩ := exists_of_nullBeside ht hb
        rcases hintOrNull_eq_union hb with ⟨ks, rfl, hs⟩ | ⟨ks, rfl, rfl⟩
        · exact .inr ⟨us, ks, ht, hh, hs⟩
        · exact .inl (by simp)
    · have hlen : 2 ≤ ts.length := hd.1
      rw [PhpType.filter_ne_null hn] at hf
      simp [hf] at hlen
    · exact .inl (nodup_of_unionHint hn)
  · have hh := (hint_eq_some.mp hb).2
    cases u with
    | union us =>
      rw [PhpType.shape, hintAs_nullable_union] at hh
      exact .inl (nodup_of_unionHint hh)
    | nullable u =>
      rcases hd with ⟨hu, -⟩ | ⟨us, hu⟩
      · exact hu.elim
      · cases hu
    | _ =>
      rw [PhpType.shape, hintAs_nullable (by simp)] at hh
      refine .inl (nodup_of_nullableHint ?_ hh)
      trivial

/-- A union that is declared has different members, unless its type is null beside a union that
has null as a member. -/
theorem nodup_hint_iff (hd : t.All PhpType.Distinct)
    (hb : (standard v).hint position t = .ok (some (.union hs))) :
    hs.Nodup ↔ ∀ us, NullBeside us t → null ∉ us := by
  constructor
  · intro hnodup us ht hn
    obtain ⟨h, hh, hb⟩ := exists_of_nullBeside ht hb
    have hshown := nullShown_of_mem hn hh
    rcases hintOrNull_eq_union hb with ⟨ks, rfl, rfl⟩ | ⟨ks, rfl, -⟩
    · exact (List.nodup_append.mp hnodup).2.2 _ hshown _ (List.mem_singleton_self _) rfl
    · exact hshown
  · intro hout
    rcases hint_union_cases hd.self hb with hnodup | ⟨us, ks, ht, hk, rfl⟩
    · exact hnodup
    · have hn := hout us ht
      have hdu : (PhpType.union us).Distinct := by
        rcases ht with rfl | rfl <;> exact ((PhpType.all_union.mp hd).2 _ (by simp)).self
      have hks : ks.Nodup := by
        -- Null is not in the inner union, so that is no union of null and another one.
        rcases hint_union_cases hdu hk with hks | ⟨us', ks', ht', -⟩
        · exact hks
        · rcases ht' with ht' | ht' <;> simp [PhpType.union.inj ht'] at hn
      rw [← List.concat_eq_append]
      exact .concat (null_not_mem_hint hdu hn hk) hks

end Registry

namespace PhpType

open DocType (PrintedOnce)
open Registry (standard NullBeside)

variable {v : Version} {position : Position} {t : PhpType}

/-! ## Flat types -/

theorem admitsNull_of_mem_alternatives (h : null ∈ t.alternatives) : t.admitsNull = true := by
  induction t using induct with
  | union ts ih =>
    obtain ⟨t, ht, h⟩ := mem_alternativesOf.mp h
    by_contra hn
    have hfalse := admitsNull_union.mp (Bool.eq_false_iff.mpr hn) t ht
    exact Bool.noConfusion ((ih t ht h).symm.trans hfalse)
  | nullable => rfl
  | _ => exact List.mem_singleton.mp h ▸ rfl

theorem distinct_of_settled (h : t.Settled) : t.Distinct := by
  rcases form_cases t with hu | ⟨ts, rfl⟩ | ⟨t, rfl⟩
  · cases t with
    | union | nullable => exact hu.elim
    | _ => trivial
  · exact ⟨h.1, h.2.1, fun t ht => .inl (h.2.2 t ht)⟩
  · rcases form_cases t with hu | hu | ⟨t, rfl⟩
    · refine .inl ⟨hu, ne_null_of_admitsNull h, ?_⟩
      rintro rfl
      cases h
    · exact .inr hu
    · cases h

theorem alternativesApart_of_settled (h : t.Settled) : t.AlternativesApart := by
  cases t with
  | union ts =>
    intro s hs t ht hne a ha b hb
    rw [alternatives_of_undivided (h.2.2 s hs)] at ha
    rw [alternatives_of_undivided (h.2.2 t ht)] at hb
    obtain rfl := List.mem_singleton.mp ha
    obtain rfl := List.mem_singleton.mp hb
    exact hne
  | nullable t =>
    intro hn
    exact Bool.noConfusion ((admitsNull_of_mem_alternatives hn).symm.trans h)
  | _ => trivial

theorem nullOutside_of_settled (h : t.Settled) : t.NullOutside := by
  cases t with
  | nullable t =>
    cases t with
    | union us => exact null_not_mem h
    | _ => trivial
  | _ => trivial

theorem not_nullBeside_of_settled {us : List PhpType} (h : t.Settled) : ¬NullBeside us t := by
  rintro (rfl | rfl)
  · exact h.2.2 (union us) (by simp)
  · exact h.2.2 (union us) (by simp)

/-- Where null was added to no union that had it and no union was formed from a nullable one,
nothing is repeated in documentation forms and in hints. -/
theorem unrepeated_of_builtApart (h : BuiltApart t) :
    t.docForm.EachUnion List.Nodup ∧ t.docForm.EachUnion PrintedOnce ∧
    ∀ b, (standard v).hint position t = .ok (some b) → b.EachUnion List.Nodup := by
  have hs := settled_of_builtApart h
  have hd : t.All Distinct := fun s hm => distinct_of_settled (hs s hm)
  refine ⟨(eachUnion_nodup_iff hd).mpr fun s hm => nullOutside_of_settled (hs s hm),
    (eachUnion_printedOnce_iff hd).mpr fun s hm => alternativesApart_of_settled (hs s hm),
    fun b hb => ?_⟩
  rw [TypeHint.eachUnion_iff (Registry.flat_of_hint hb)]
  rintro hints rfl
  rw [Registry.nodup_hint_iff hd hb]
  exact fun us ht => absurd ht (not_nullBeside_of_settled hs.self)

/-! ## All types from the constructors -/

/-- In the documentation form of a type from the constructors the members of every union are
different exactly if no union with null was made nullable, and no alternative is printed twice
exactly if members that are documented differently have none in common and null was added to no
type that had it. In a hint no union stands in another one, and its members are different unless
the type is null beside a union that has null as a member. -/
theorem built_eachUnion_iff (h : Built t) :
    (standard v).doc position t = .ok t.docForm ∧
    (t.docForm.EachUnion List.Nodup ↔ t.All NullOutside) ∧
    (t.docForm.EachUnion PrintedOnce ↔ t.All AlternativesApart) ∧
    ∀ b, (standard v).hint position t = .ok (some b) → b.Flat ∧
      (b.EachUnion List.Nodup ↔ ∀ us hs, NullBeside us t → b = .union hs → null ∉ us) := by
  have hd := distinct_of_built h
  refine ⟨doc_eq_docForm, eachUnion_nodup_iff hd, eachUnion_printedOnce_iff hd, fun b hb => ?_⟩
  have hflat := Registry.flat_of_hint hb
  refine ⟨hflat, (TypeHint.eachUnion_iff hflat).trans ⟨?_, ?_⟩⟩
  · rintro hnodup us hs ht rfl
    exact (Registry.nodup_hint_iff hd hb).mp (hnodup hs rfl) us ht
  · rintro hout hs rfl
    exact (Registry.nodup_hint_iff hd hb).mpr fun us ht => hout us hs ht rfl

/-- A union beside null in which null is a member too: the hint repeats it. -/
theorem built_eachUnion_iff_nested :
    let us : List PhpType := [simple .int, simple .string, null]
    let t : PhpType := union [union us, null]
    let b : TypeHint := .union [.keyword "int", .keyword "string", .keyword "null", .keyword "null"]
    Built t ∧ (standard (.of 8 0)).hint .param t = .ok (some b) ∧
      (standard (.of 8 0)).doc .param t = .ok t.docForm ∧
      (t.docForm.EachUnion List.Nodup ↔ t.All NullOutside) ∧
      (t.docForm.EachUnion PrintedOnce ↔ t.All AlternativesApart) ∧ b.Flat ∧
      (b.EachUnion List.Nodup ↔ ∀ us hs, NullBeside us t → b = .union hs → null ∉ us) := by
  intro us t b
  have ht : Built t := by
    have hus : Built (unite us) := by
      refine .unite ?_
      simpa [us] using ⟨.simple .int, .simple .string, .simple .null⟩
    exact built_unite_pair (.orNull hus) (.simple .null)
  have hb : (standard (.of 8 0)).hint .param t = .ok (some b) := by decide +kernel
  obtain ⟨hdoc, hnodup, honce, hhint⟩ := @built_eachUnion_iff (.of 8 0) .param t ht
  exact ⟨ht, hb, hdoc, hnodup, honce, hhint b hb⟩

/-- Null is written at the end of a union that has it, in documentation and in a hint. -/
theorem exists_built_repeated :
    (∃ t ds, Built t ∧ (standard (.of 8 0)).doc .param t = .ok (.union ds) ∧ ¬ds.Nodup) ∧
    ∃ t hs, Built t ∧ (standard (.of 8 0)).hint .param t = .ok (some (.union hs)) ∧ ¬hs.Nodup := by
  constructor
  · exact ⟨orNull (unite [simple .int, null]), [.name "int", .name "null", .name "null"],
      .orNull (built_unite_pair (.simple _) (.simple _)), by decide +kernel, by decide⟩
  · have ht : Built (unite [orNull (unite [unite [simple .int, simple .string], null]), null]) :=
      built_unite_pair (.orNull (built_unite_pair (built_unite_pair (.simple _) (.simple _))
        (.simple _))) (.simple _)
    exact ⟨_, [.keyword "int", .keyword "string", .keyword "null", .keyword "null"], ht,
      by decide +kernel, by decide⟩

end PhpType

end PhpAtlas
