import PhpAtlas.Proofs.PhpType.Constructors
import PhpAtlas.Resolve.Resolver

/-! # Types without null

One way to be null is taken from a type. A type from the constructors has no second one,
unless null was added to a union that had it. To look for the class of an object null
makes no difference when it is united with the object's type, and one when it is
added to a union of null and one class.
-/

namespace PhpAtlas

namespace PhpType

variable {s t u : PhpType} {ts us : List PhpType}

mutual

/-- The types that a value has one of by the alternatives in its type. -/
def alternatives : PhpType → List PhpType
  | union ts => alternativesOf ts
  | nullable t => null :: alternatives t
  | t => [t]

def alternativesOf : List PhpType → List PhpType
  | [] => []
  | t :: ts => alternatives t ++ alternativesOf ts

end

/-- Null is in at most one place of the type: around it, or as a member of it. -/
def NullOnce : PhpType → Prop
  | nullable t => t.admitsNull = false
  | union ts => ∀ t ∈ ts, t.Undivided ∨ t.admitsNull = false
  | _ => True

/-- The type is not mixed, and no member of it is. -/
def Unmixed (t : PhpType) : Prop := t ≠ mixed ∧ ∀ ts, t = union ts → mixed ∉ ts

theorem nullOnce_of_undivided (h : t.Undivided) : t.NullOnce := by
  cases t with
  | union | nullable => exact h.elim
  | _ => trivial

/-- Where null was added to no union that had it, it is in one place only. -/
theorem nullOnce_of_settled (h : t.Settled) : t.NullOnce := by
  rcases form_cases t with ht | ⟨ts, rfl⟩ | ⟨t, rfl⟩
  · exact nullOnce_of_undivided ht
  · exact fun t ht => .inl (h.2.2 t ht)
  · exact h

/-! ## Alternatives -/

theorem mem_alternativesOf : u ∈ alternativesOf ts ↔ ∃ t ∈ ts, u ∈ t.alternatives := by
  induction ts with
  | nil => simp [alternativesOf]
  | cons t ts ih => simp [alternativesOf, ih]

theorem alternatives_of_undivided (h : t.Undivided) : t.alternatives = [t] := by
  cases t with
  | union | nullable => exact h.elim
  | _ => rfl

/-- Only null has no other alternative. -/
theorem exists_alternative_ne_null (h : t.All Distinct) (hn : t ≠ null) :
    ∃ u ∈ t.alternatives, u ≠ null := by
  have undivided {t : PhpType} (hu : t.Undivided) (hn : t ≠ null) :
      ∃ u ∈ t.alternatives, u ≠ null :=
    ⟨t, by rw [alternatives_of_undivided hu]; exact List.mem_singleton_self t, hn⟩
  induction t using induct with
  | union ts ih =>
    obtain ⟨hself, hall⟩ := all_union.mp h
    obtain ⟨t, ht, hne⟩ := exists_ne_of_two_le hself.1 hself.2.1 null
    obtain ⟨u, hu, hne⟩ := ih t ht (hall t ht) hne
    exact ⟨u, mem_alternativesOf.mpr ⟨t, ht, hu⟩, hne⟩
  | nullable t ih =>
    obtain ⟨hself, hall⟩ := all_nullable.mp h
    obtain ⟨u, hu, hne⟩ := ih hall (by rcases hself with ⟨-, hne, -⟩ | ⟨us, rfl⟩; exacts [hne, nofun])
    exact ⟨u, List.mem_cons_of_mem _ hu, hne⟩
  | _ => exact undivided trivial hn

/-! ## Unions of flat parts -/

theorem flatMap_parts_of_undivided (h : ∀ t ∈ ts, t.Undivided) : ts.flatMap parts = ts := by
  induction ts with
  | nil => rfl
  | cons t ts ih =>
    obtain ⟨ht, hts⟩ := List.forall_mem_cons.mp h
    rw [List.flatMap_cons, parts_of_undivided ht, ih hts, List.singleton_append]

theorem unite_eq_union (hl : 2 ≤ us.length) (hd : (ts.flatMap parts).eraseDups = us) :
    unite ts = union us := by
  unfold unite
  match us, hl with
  | _ :: _ :: _, _ => rw [hd]

/-- The members of a union without null are its parts. -/
theorem undivided_of_mem (hd : (union ts).Distinct) (hn : null ∉ ts) (ht : t ∈ ts) : t.Undivided :=
  (hd.2.2 t ht).resolve_right fun h => hn h.2

theorem unite_of_distinct (hd : (union ts).Distinct) (hn : null ∉ ts) : unite ts = union ts := by
  refine unite_eq_union hd.1 ?_
  rw [flatMap_parts_of_undivided fun t ht => undivided_of_mem hd hn ht]
  exact eraseDups_of_nodup hd.2.1

theorem anyNullable_flatMap_parts : anyNullable (ts.flatMap parts) = anyNullable ts := by
  have hparts (t : PhpType) : anyNullable t.parts = t.admitsNull := by
    cases t with
    | nullable t => simp [parts, anyNullable, admitsNull, null]
    | union ts => rfl
    | _ => simp [parts, anyNullable]
  have happend (ts us : List PhpType) :
      anyNullable (ts ++ us) = (anyNullable ts || anyNullable us) := by
    induction ts with
    | nil => rfl
    | cons t ts ih => simp only [List.cons_append, anyNullable, ih, Bool.or_assoc]
  induction ts with
  | nil => rfl
  | cons t ts ih => rw [List.flatMap_cons, happend, hparts, ih, anyNullable]

/-- A union admits null exactly if one of the types in it does. -/
theorem admitsNull_unite : (unite ts).admitsNull = anyNullable ts := by
  rw [← anyNullable_flatMap_parts, Bool.eq_iff_iff, ← not_iff_not, Bool.not_eq_true,
    Bool.not_eq_true, anyNullable_eq_false]
  rcases unite_cases ts with ⟨hnil, he⟩ | ⟨hm, hone⟩ | ⟨ms, he, -, -, hmem⟩
  · simp [hnil, he, admitsNull]
  · exact ⟨fun h u hu => hone u hu ▸ h, fun h => h _ hm⟩
  · rw [he, admitsNull_union]
    exact forall_congr' fun u => by rw [hmem u]

/-! ## The type without null -/

theorem nonNull?_of_undivided (h : t.Undivided) (hn : t ≠ null) : t.nonNull? = some t := by
  cases t with
  | union | nullable => exact h.elim
  | simple s =>
    cases s with
    | null => exact absurd rfl hn
    | _ => rfl
  | _ => rfl

/-- A union has a member that is not null. -/
theorem nonNull?_union (hd : (union ts).Distinct) :
    (union ts).nonNull? = some (unite (ts.filter (· != null))) := by
  obtain ⟨t, ht, hne⟩ := exists_ne_of_two_le hd.1 hd.2.1 null
  have hmem : t ∈ ts.filter (· != null) := List.mem_filter.mpr ⟨ht, bne_iff_ne.mpr hne⟩
  rw [nonNull?]
  split
  · next hnil => exact absurd (hnil ▸ hmem) List.not_mem_nil
  · rfl

theorem filter_ne_null (hn : null ∉ ts) : ts.filter (· != null) = ts :=
  List.filter_eq_self.mpr fun _ ht => bne_iff_ne.mpr fun he => hn (he ▸ ht)

theorem nonNull?_union_of_not_mem (hd : (union ts).Distinct) (hn : null ∉ ts) :
    (union ts).nonNull? = some (union ts) := by
  rw [nonNull?_union hd, filter_ne_null hn, unite_of_distinct hd hn]

theorem null_not_mem (h : (union ts).admitsNull = false) : null ∉ ts :=
  fun hn => Bool.noConfusion (admitsNull_union.mp h null hn)

/-- A type that does not admit null is left as it is. -/
theorem nonNull?_of_admitsNull (hd : t.Distinct) (h : t.admitsNull = false) :
    t.nonNull? = some t := by
  rcases form_cases t with ht | ⟨ts, rfl⟩ | ⟨t, rfl⟩
  · exact nonNull?_of_undivided ht (ne_null_of_admitsNull h)
  · exact nonNull?_union_of_not_mem hd (null_not_mem h)
  · cases h

theorem nonNull?_eq_none_iff (hd : t.Distinct) : t.nonNull? = none ↔ t = null := by
  refine ⟨fun h => ?_, fun h => h ▸ rfl⟩
  by_contra hne
  rcases form_cases t with ht | ⟨ts, rfl⟩ | ⟨t, rfl⟩
  · cases (nonNull?_of_undivided ht hne).symm.trans h
  · cases (nonNull?_union hd).symm.trans h
  · cases h

theorem mixed_mem_of_not_unmixed (h : mixed ∈ ts) : ¬(unite ts).Unmixed := by
  rintro ⟨hne, hmem⟩
  have hparts : mixed ∈ ts.flatMap parts := List.mem_flatMap.mpr ⟨mixed, h, List.mem_singleton_self _⟩
  rcases unite_cases ts with ⟨hnil, -⟩ | ⟨-, hone⟩ | ⟨ms, he, -, -, hms⟩
  · exact absurd (hnil ▸ hparts) List.not_mem_nil
  · exact hne (hone mixed hparts).symm
  · exact hmem ms he ((hms mixed).mpr hparts)

/-- The type without null does not admit null exactly if null was in one place only. -/
theorem admitsNull_nonNull?_iff (hd : t.Distinct) (hu : t.nonNull? = some u) (hm : u.Unmixed) :
    u.admitsNull = false ↔ t.NullOnce := by
  rcases form_cases t with ht | ⟨ts, rfl⟩ | ⟨t, rfl⟩
  · have hne : t ≠ null := by
      rintro rfl
      cases hu
    obtain rfl := Option.some.inj ((nonNull?_of_undivided ht hne).symm.trans hu)
    exact iff_of_true (admitsNull_of_undivided ht hne hm.1) (nullOnce_of_undivided ht)
  · obtain rfl := Option.some.inj ((nonNull?_union hd).symm.trans hu)
    rw [admitsNull_unite, anyNullable_eq_false]
    have hmem (t : PhpType) : t ∈ ts.filter (· != null) ↔ t ∈ ts ∧ t ≠ null := by
      rw [List.mem_filter, bne_iff_ne]
    refine ⟨fun h t ht => ?_, fun h t ht => ?_⟩
    · by_cases hne : t = null
      · exact .inl (hne ▸ undivided_null)
      · exact .inr (h t ((hmem t).mpr ⟨ht, hne⟩))
    · refine (h t ((hmem t).mp ht).1).elim (fun hu => ?_) id
      refine admitsNull_of_undivided hu ((hmem t).mp ht).2 ?_
      rintro rfl
      exact mixed_mem_of_not_unmixed ht hm
  · obtain rfl := Option.some.inj hu
    rfl

theorem all_distinct_nonNull? (hd : t.All Distinct) (hu : t.nonNull? = some u) :
    u.All Distinct := by
  rcases form_cases t with ht | ⟨ts, rfl⟩ | ⟨t, rfl⟩
  · have hne : t ≠ null := by
      rintro rfl
      cases hu
    exact Option.some.inj ((nonNull?_of_undivided ht hne).symm.trans hu) ▸ hd
  · obtain rfl := Option.some.inj ((nonNull?_union hd.self).symm.trans hu)
    exact all_distinct_unite fun t ht => (all_union.mp hd).2 t (List.mem_of_mem_filter ht)
  · exact Option.some.inj hu ▸ (all_nullable.mp hd).2

/-! ## Null beside a type -/

theorem unite_singleton (hd : t.Distinct) (hn : ∀ u, t ≠ nullable u) : unite [t] = t := by
  rcases form_cases t with ht | ⟨ts, rfl⟩ | ⟨t, rfl⟩
  · unfold unite
    rw [List.flatMap_singleton, parts_of_undivided ht]
    rfl
  · refine unite_eq_union hd.1 ?_
    rw [List.flatMap_singleton]
    exact eraseDups_of_nodup hd.2.1
  · exact absurd rfl (hn t)

theorem eraseDups_parts_unite_null (hd : t.parts.Nodup) : ([t, null].flatMap parts).eraseDups =
    if null ∈ t.parts then t.parts else t.parts ++ [null] := by
  have hparts : [t, null].flatMap parts = t.parts ++ [null] := by
    rw [List.flatMap_cons, List.flatMap_singleton]
    rfl
  rw [hparts, List.eraseDups_append, eraseDups_of_nodup hd]
  split
  · next h => simp [List.removeAll, h]
  · next h => simp [List.removeAll, h, eraseDups_of_nodup (List.nodup_singleton null)]

theorem unite_null_of_mem (hd : t.parts.Nodup) (hl : 2 ≤ t.parts.length) (hn : null ∈ t.parts) :
    unite [t, null] = union t.parts :=
  unite_eq_union hl ((eraseDups_parts_unite_null hd).trans (if_pos hn))

theorem unite_null_of_not_mem (hd : t.parts.Nodup) (hl : t.parts ≠ []) (hn : null ∉ t.parts) :
    unite [t, null] = union (t.parts ++ [null]) := by
  have := List.length_pos_of_ne_nil hl
  refine unite_eq_union ?_ ((eraseDups_parts_unite_null hd).trans (if_neg hn))
  simp only [List.length_append, List.length_singleton]
  omega

theorem nonNull?_union_append_null (hn : null ∉ ts) (hl : ts ≠ []) :
    (union (ts ++ [null])).nonNull? = some (unite ts) := by
  obtain ⟨t, ts, rfl⟩ := List.exists_cons_of_ne_nil hl
  have hf : (t :: ts ++ [null]).filter (· != null) = t :: ts := by
    rw [List.filter_append, filter_ne_null hn, List.filter_singleton, bne_self_eq_false]
    exact List.append_nil _
  rw [nonNull?, hf]

/-- To unite a type with null changes nothing but null. -/
theorem nonNull?_unite_null (hd : t.All Distinct) : (unite [t, null]).nonNull? = t.nonNull? := by
  rcases form_cases t with ht | ⟨ts, rfl⟩ | ⟨t, rfl⟩
  · by_cases hne : t = null
    · subst hne
      decide
    · have hp := parts_of_undivided ht
      have hn : null ∉ t.parts := by simpa [hp] using Ne.symm hne
      have hl : t.parts ≠ [] := by simp [hp]
      rw [unite_null_of_not_mem (by simp [hp]) hl hn, nonNull?_union_append_null hn hl, hp,
        unite_singleton hd.self (by rintro u rfl; exact ht), nonNull?_of_undivided ht hne]
  · obtain ⟨hlen, hnodup, -⟩ := hd.self
    by_cases hn : null ∈ ts
    · rw [unite_null_of_mem (t := union ts) hnodup hlen hn]
      rfl
    · have hl : ts ≠ [] := List.ne_nil_of_length_pos (by omega)
      have hu : unite [union ts, null] = union (ts ++ [null]) :=
        unite_null_of_not_mem (t := union ts) hnodup hl hn
      rw [hu, nonNull?_union_append_null hn hl, unite_of_distinct hd.self hn,
        nonNull?_union_of_not_mem hd.self hn]
  · obtain ⟨hself, hall⟩ := all_nullable.mp hd
    have hform : t ≠ null ∧ ∀ u, t ≠ nullable u := by
      rcases hself with ⟨hu, hne, -⟩ | ⟨us, rfl⟩
      · exact ⟨hne, by rintro u rfl; exact hu⟩
      · exact ⟨nofun, nofun⟩
    have hu : unite [nullable t, null] = union ([t] ++ [null]) :=
      unite_null_of_mem (by simpa [parts] using hform.1) (by simp [parts]) (by simp [parts])
    rw [hu, nonNull?_union_append_null (by simpa using hform.1.symm) (by simp),
      unite_singleton hall.self hform.2]
    rfl

theorem eq_of_filter_ne_null (hl : 2 ≤ ts.length) (hd : ts.Nodup)
    (hf : ts.filter (· != null) = [u]) : ts = [u, null] ∨ ts = [null, u] := by
  have hcons {t : PhpType} {us : List PhpType} (ht : t ≠ null) :
      (t :: us).filter (· != null) = t :: us.filter (· != null) :=
    List.filter_cons_of_pos (bne_iff_ne.mpr ht)
  have hnull {us : List PhpType} : (null :: us).filter (· != null) = us.filter (· != null) :=
    List.filter_cons_of_neg (by simp)
  match ts, hl with
  | s :: t :: ts, _ =>
    obtain ⟨⟨hst, hs⟩, ht, -⟩ : (s ≠ t ∧ s ∉ ts) ∧ t ∉ ts ∧ ts.Nodup := by simpa using hd
    by_cases hne : s = null
    · subst hne
      rw [hnull, hcons hst.symm, filter_ne_null hs] at hf
      obtain ⟨rfl, rfl⟩ := List.cons.inj hf
      exact .inr rfl
    · rw [hcons hne] at hf
      obtain ⟨rfl, hrest⟩ := List.cons.inj hf
      have htn : t = null := by
        by_contra htn
        cases (hcons htn).symm.trans hrest
      subst htn
      rw [hnull, filter_ne_null ht] at hrest
      exact .inl (by rw [hrest])

/-- A union of different types is no object's class, unless only one type is in it. -/
theorem eq_singleton_of_className? (hd : ∀ t ∈ ts, t.Distinct) (hnodup : ts.Nodup)
    (hn : ∀ t, nullable t ∉ ts) (hc : (unite ts).className? ≠ none) : ts = [unite ts] := by
  rcases unite_cases ts with ⟨-, he⟩ | ⟨hm, hone⟩ | ⟨ms, he, -⟩
  · exact absurd (he ▸ rfl) hc
  · have hu (t : PhpType) (ht : t ∈ ts) : t.Undivided := by
      rcases form_cases t with hu | ⟨us, rfl⟩ | ⟨t, rfl⟩
      · exact hu
      · -- Two members of a union are two parts.
        have hmem (u : PhpType) (hu : u ∈ us) := hone u (List.mem_flatMap.mpr ⟨_, ht, hu⟩)
        obtain ⟨u, hu, hne⟩ := exists_ne_of_two_le (hd _ ht).1 (hd _ ht).2.1 (unite ts)
        exact absurd (hmem u hu) hne
      · exact absurd ht (hn t)
    rw [flatMap_parts_of_undivided hu] at hm hone
    exact List.perm_singleton.mp ((List.perm_ext_iff_of_nodup hnodup (List.nodup_singleton _)).mpr
      fun t => ⟨fun ht => List.mem_singleton.mpr (hone t ht), fun ht => List.mem_singleton.mp ht ▸ hm⟩)
  · exact absurd (he ▸ rfl) hc

/-- To make a type nullable changes nothing in the class of an object, unless the type is a union
of null and one class. -/
theorem classOfType?_orNull (hd : t.All Distinct)
    (hn : ∀ u, t = union [u, null] ∨ t = union [null, u] → u.className? = none) :
    ResolverContext.classOfType? (orNull t) = ResolverContext.classOfType? t := by
  unfold ResolverContext.classOfType?
  rcases orNull_cases t with ⟨he, -⟩ | ⟨he, ⟨ht, hne, -⟩ | ⟨us, rfl⟩⟩
  · rw [he]
  · rw [he, nonNull?_of_undivided ht hne]
    rfl
  · obtain ⟨⟨hlen, hnodup, hmem⟩, hall⟩ := all_union.mp hd
    rw [he, nonNull?_union hd.self]
    refine Eq.symm (by_contra fun hc => hc ?_)
    have hf := eq_singleton_of_className?
      (fun t ht => (hall t (List.mem_of_mem_filter ht)).self) (hnodup.filter _)
      (fun t ht => (hmem _ (List.mem_of_mem_filter ht)).elim id nofun) hc
    exact hn _ ((eq_of_filter_ne_null hlen hnodup hf).imp (congrArg union) (congrArg union))

/-- What is left without null of a type from the constructors: nothing if null is its one
alternative, else a type that has no null to take if null was in one place only. The class of an
object is the same for the type united with null, and for the nullable type if the type is not a
union of null and one class. -/
theorem built_nonNull (h : Built t) :
    (t.nonNull? = none ↔ ∀ u ∈ t.alternatives, u = null) ∧
    (∀ u, t.nonNull? = some u → u.Unmixed →
      (u.admitsNull = false ∧ u.nonNull? = some u ↔ t.NullOnce)) ∧
    (∀ (r : ResolverContext) s, r.classFromType (unite [t, null]) s = r.classFromType t s) ∧
    ((∀ u, t = union [u, null] ∨ t = union [null, u] → u.className? = none) →
      ∀ (r : ResolverContext) s, r.classFromType (orNull t) s = r.classFromType t s) := by
  have hd := distinct_of_built h
  have hclass {u : PhpType} (he : ResolverContext.classOfType? u = ResolverContext.classOfType? t)
      (r : ResolverContext) (s : ResolverState) : r.classFromType u s = r.classFromType t s := by
    rw [ResolverContext.classFromType, he, ResolverContext.classFromType]
  refine ⟨(nonNull?_eq_none_iff hd.self).trans ⟨?_, fun hall => ?_⟩, fun u hu hm => ?_,
    hclass (congrArg (·.bind className?) (nonNull?_unite_null hd)),
    fun hn => hclass (classOfType?_orNull hd hn)⟩
  · rintro rfl
    exact List.forall_mem_singleton.mpr rfl
  · by_contra hne
    obtain ⟨u, hu, hne⟩ := exists_alternative_ne_null hd hne
    exact hne (hall u hu)
  · rw [← admitsNull_nonNull?_iff hd.self hu hm]
    exact and_iff_left_of_imp (nonNull?_of_admitsNull (all_distinct_nonNull? hd hu).self)

theorem nullable_string_nonNull : Built (orNull (simple .string)) ∧ (simple .string).Unmixed ∧
    ((simple .string).admitsNull = false ∧ (simple .string).nonNull? = some (simple .string) ↔
      (orNull (simple .string)).NullOnce) :=
  have h : Built (orNull (simple .string)) := .orNull (.simple _)
  have hm : (simple .string).Unmixed := ⟨nofun, nofun⟩
  ⟨h, hm, (built_nonNull h).2.1 _ rfl hm⟩

/-- Null is in two places of a nullable union of it, and one of them is taken. -/
theorem exists_built_nonNull_admitsNull :
    ∃ t u, Built t ∧ t.nonNull? = some u ∧ u.Unmixed ∧ u.admitsNull = true :=
  ⟨orNull (unite [simple .int, null]), unite [simple .int, null],
    .orNull (built_unite_pair (.simple _) (.simple _)), rfl, ⟨nofun, fun
      | _, rfl => by decide⟩, rfl⟩

end PhpType

end PhpAtlas
