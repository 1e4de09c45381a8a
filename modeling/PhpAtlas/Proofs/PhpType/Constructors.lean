import PhpAtlas.Proofs.PhpType.Subterms

/-! # Types from constructors

A union is formed from what its parts add to it, and null is added to a type that has
none. The constructors look at the outermost form only: a union inside of a nullable
type is not flattened, and null in a union is not seen. In all other uses they leave
flat types.
-/

namespace PhpAtlas.PhpType

variable {p : PhpType → Prop} {s t u : PhpType} {ts us ms : List PhpType}

/-- The types that the constructors build from types without parts. -/
inductive Built : PhpType → Prop
  | simple (s : SimpleType) : Built (.simple s)
  | ofClass (name : String) : Built (ofClass name)
  | orNull {t : PhpType} (h : Built t) : Built (orNull t)
  | array {key item : PhpType} (hk : Built key) (hi : Built item) : Built (.array key item)
  | anyArray : Built anyArray
  | unite {ts : List PhpType} (h : ∀ t ∈ ts, Built t) : Built (unite ts)

/-- The same, where null is not added to a union that admits it, and no union is formed from a
nullable one. -/
inductive BuiltApart : PhpType → Prop
  | simple (s : SimpleType) : BuiltApart (.simple s)
  | ofClass (name : String) : BuiltApart (ofClass name)
  | orNull {t : PhpType} (h : BuiltApart t) (hn : ∀ ts, t = union ts → t.admitsNull = false) :
      BuiltApart (orNull t)
  | array {key item : PhpType} (hk : BuiltApart key) (hi : BuiltApart item) :
      BuiltApart (.array key item)
  | anyArray : BuiltApart anyArray
  | unite {ts : List PhpType} (h : ∀ t ∈ ts, BuiltApart t) (hn : ∀ us, nullable (union us) ∉ ts) :
      BuiltApart (unite ts)

/-- A rule for the outermost form of a type: a union has at least two different members, none of
which is a union or nullable, and what is nullable does not admit null already. -/
def Settled : PhpType → Prop
  | union ts => 2 ≤ ts.length ∧ ts.Nodup ∧ ∀ t ∈ ts, t.Undivided
  | nullable t => t.admitsNull = false
  | _ => True

/-- What is true of the outermost form in any case: a union can have another one as its member, but
only beside null, and what is nullable can be a union that admits null. -/
def Distinct : PhpType → Prop
  | union ts => 2 ≤ ts.length ∧ ts.Nodup ∧ ∀ t ∈ ts, t.Undivided ∨ (∃ us, t = union us) ∧ null ∈ ts
  | nullable t => (t.Undivided ∧ t ≠ null ∧ t ≠ mixed) ∨ ∃ us, t = union us
  | _ => True

/-- All types in the type, and the type itself, have the property. -/
def All (p : PhpType → Prop) (t : PhpType) : Prop := ∀ s ∈ t.subterms, p s

instance : DecidablePred Settled
  | union ts => inferInstanceAs (Decidable (2 ≤ ts.length ∧ ts.Nodup ∧ ∀ t ∈ ts, t.Undivided))
  | nullable t => inferInstanceAs (Decidable (t.admitsNull = false))
  | simple _ | classString _ | iterable _ | array .. | object .. | generic .. | intersection _ =>
      isTrue trivial

instance [DecidablePred p] : DecidablePred (All p) :=
  fun t => inferInstanceAs (Decidable (∀ s ∈ t.subterms, p s))

theorem built_unite_pair (hs : Built s) (ht : Built t) : Built (unite [s, t]) :=
  .unite (List.forall_mem_cons.mpr ⟨hs, List.forall_mem_singleton.mpr ht⟩)

/-! ## Types in a type -/

theorem All.self (h : t.All p) : p t := h t (mem_subterms_self t)

theorem all_simple {s : SimpleType} : (simple s).All p ↔ p (simple s) := List.forall_mem_singleton

theorem all_object {form : ClassReference} {name : String} :
    (object form name).All p ↔ p (object form name) := List.forall_mem_singleton

theorem all_nullable : (nullable t).All p ↔ p (nullable t) ∧ t.All p := List.forall_mem_cons

theorem all_array : (array s t).All p ↔ p (array s t) ∧ s.All p ∧ t.All p := by
  rw [All, subterms, List.forall_mem_cons, List.forall_mem_append]
  rfl

theorem all_union : (union ts).All p ↔ p (union ts) ∧ ∀ t ∈ ts, t.All p := by
  rw [All, subterms, List.forall_mem_cons]
  refine and_congr_right fun _ => ⟨fun h t ht s hs => ?_, fun h s hs => ?_⟩
  · exact h s (mem_subtermsOf.mpr ⟨t, ht, hs⟩)
  · obtain ⟨t, ht, hs⟩ := mem_subtermsOf.mp hs
    exact h t ht s hs

/-! ## Parts of unions -/

theorem parts_of_undivided (h : t.Undivided) : t.parts = [t] := by
  cases t with
  | union | nullable => exact h.elim
  | _ => rfl

theorem undivided_null : null.Undivided := trivial

theorem form_cases (t : PhpType) : t.Undivided ∨ (∃ ts, t = union ts) ∨ ∃ u, t = nullable u := by
  cases t with
  | union ts => exact .inr (.inl ⟨ts, rfl⟩)
  | nullable u => exact .inr (.inr ⟨u, rfl⟩)
  | _ => exact .inl trivial

theorem anyNullable_eq_false : anyNullable ts = false ↔ ∀ t ∈ ts, t.admitsNull = false := by
  induction ts with
  | nil => simp [anyNullable]
  | cons t ts ih => simp [anyNullable, ih]

theorem admitsNull_union : (union ts).admitsNull = false ↔ ∀ t ∈ ts, t.admitsNull = false :=
  anyNullable_eq_false

theorem admitsNull_of_undivided (h : t.Undivided) (hn : t ≠ null) (hm : t ≠ mixed) :
    t.admitsNull = false := by
  cases t with
  | union | nullable => exact h.elim
  | simple s =>
    cases s with
    | null => exact absurd rfl hn
    | mixed => exact absurd rfl hm
    | _ => rfl
  | _ => rfl

theorem ne_null_of_admitsNull (h : t.admitsNull = false) : t ≠ null := by
  rintro rfl
  cases h

/-- Null is added to a type, or the type has it by its outermost form. -/
theorem orNull_cases (t : PhpType) : (orNull t = t ∧ ∀ ts, t ≠ union ts) ∨
    (orNull t = nullable t ∧ (t.Undivided ∧ t ≠ null ∧ t ≠ mixed ∨ ∃ us, t = union us)) := by
  cases t with
  | simple s =>
    cases s with
    | null | mixed => exact .inl ⟨rfl, nofun⟩
    | _ => exact .inr ⟨rfl, .inl ⟨trivial, nofun, nofun⟩⟩
  | nullable t => exact .inl ⟨rfl, nofun⟩
  | union us => exact .inr ⟨rfl, .inr ⟨us, rfl⟩⟩
  | _ => exact .inr ⟨rfl, .inl ⟨trivial, nofun, nofun⟩⟩

/-- A union is empty, or all its parts are one type, or it has different members. -/
theorem unite_cases (ts : List PhpType) :
    (ts.flatMap parts = [] ∧ unite ts = simple .never) ∨
    (unite ts ∈ ts.flatMap parts ∧ ∀ u ∈ ts.flatMap parts, u = unite ts) ∨
    ∃ ms, unite ts = union ms ∧ 2 ≤ ms.length ∧ ms.Nodup ∧ ∀ u, u ∈ ms ↔ u ∈ ts.flatMap parts := by
  have hmem (u : PhpType) : u ∈ (ts.flatMap parts).eraseDups ↔ u ∈ ts.flatMap parts :=
    List.mem_eraseDups
  have hnodup := nodup_eraseDups (ts.flatMap parts)
  unfold unite
  match he : (ts.flatMap parts).eraseDups with
  | [] =>
    refine .inl ⟨List.eq_nil_iff_forall_not_mem.mpr fun u hu => ?_, rfl⟩
    exact List.not_mem_nil (he ▸ (hmem u).mpr hu)
  | [m] =>
    simp only [he, List.mem_singleton] at hmem
    exact .inr (.inl ⟨(hmem m).mp rfl, fun u hu => (hmem u).mpr hu⟩)
  | m :: m' :: ms =>
    refine .inr (.inr ⟨_, rfl, by simp, he ▸ hnodup, fun u => ?_⟩)
    rw [← hmem u, he]

/-- Whatever is true of the parts and of a union of them is true of their union. -/
theorem unite_of_parts {q : PhpType → Prop} (hnever : q (simple .never))
    (hparts : ∀ t ∈ ts, ∀ u ∈ t.parts, q u)
    (hunion : ∀ ms, 2 ≤ ms.length → ms.Nodup → (∀ u, u ∈ ms ↔ u ∈ ts.flatMap parts) →
      q (union ms)) : q (unite ts) := by
  rcases unite_cases ts with ⟨-, he⟩ | ⟨hm, -⟩ | ⟨ms, he, hlen, hnodup, hmem⟩
  · exact he ▸ hnever
  · obtain ⟨t, ht, hu⟩ := List.mem_flatMap.mp hm
    exact hparts t ht _ hu
  · exact he ▸ hunion ms hlen hnodup hmem

/-- The parts of a type stand in it, or are null. -/
theorem all_of_mem_parts (h : t.All p) (hn : p null) (hu : u ∈ t.parts) : u.All p := by
  cases t with
  | union ts => exact (all_union.mp h).2 u hu
  | nullable t =>
    rcases List.mem_pair.mp hu with rfl | rfl
    · exact (all_nullable.mp h).2
    · exact all_simple.mpr hn
  | _ =>
    obtain rfl := List.mem_singleton.mp hu
    exact h

/-- Two of its members are different. -/
theorem exists_ne_of_two_le (hl : 2 ≤ ts.length) (hd : ts.Nodup) (t : PhpType) :
    ∃ u ∈ ts, u ≠ t := by
  match ts, hl with
  | u :: u' :: _, _ =>
    by_cases hu : u = t
    · have hne := (List.nodup_cons.mp hd).1
      refine ⟨u', by simp, ?_⟩
      rintro rfl
      exact hne (hu ▸ List.mem_cons_self)
    · exact ⟨u, List.mem_cons_self, hu⟩

/-! ## What is true in any case -/

theorem undivided_or_union_of_mem_parts (h : t.Distinct) (hu : u ∈ t.parts) :
    u.Undivided ∨ (∃ us, u = union us) ∧ null ∈ t.parts := by
  cases t with
  | union ts => exact h.2.2 u hu
  | nullable t =>
    rcases List.mem_pair.mp hu with rfl | rfl
    · exact h.imp And.left fun hu => ⟨hu, by simp [parts]⟩
    · exact .inl undivided_null
  | _ =>
    obtain rfl := List.mem_singleton.mp hu
    exact .inl trivial

theorem all_distinct_unite (h : ∀ t ∈ ts, t.All Distinct) : (unite ts).All Distinct := by
  apply unite_of_parts
  · exact all_simple.mpr trivial
  · exact fun t ht u hu => all_of_mem_parts (h t ht) trivial hu
  · refine fun ms hlen hnodup hmem => all_union.mpr ⟨⟨hlen, hnodup, fun u hu => ?_⟩, fun u hu => ?_⟩
    · obtain ⟨t, ht, hu⟩ := List.mem_flatMap.mp ((hmem u).mp hu)
      refine (undivided_or_union_of_mem_parts (h t ht).self hu).imp_right fun ⟨hu, hn⟩ => ⟨hu, ?_⟩
      exact (hmem null).mpr (List.mem_flatMap.mpr ⟨t, ht, hn⟩)
    · obtain ⟨t, ht, hu⟩ := List.mem_flatMap.mp ((hmem u).mp hu)
      exact all_of_mem_parts (h t ht) trivial hu

theorem distinct_of_built (h : Built t) : t.All Distinct := by
  induction h with
  | simple => exact all_simple.mpr trivial
  | ofClass => exact all_object.mpr trivial
  | @orNull t _ ih =>
    rcases orNull_cases t with ⟨he, -⟩ | ⟨he, ht⟩
    · rwa [he]
    · exact he ▸ all_nullable.mpr ⟨ht, ih⟩
  | array _ _ ihk ihi => exact all_array.mpr ⟨trivial, ihk, ihi⟩
  | anyArray => exact all_array.mpr ⟨trivial, all_simple.mpr trivial, all_simple.mpr trivial⟩
  | unite _ ih => exact all_distinct_unite ih

/-! ## Flat types -/

theorem settled_of_builtApart (h : BuiltApart t) : t.All Settled := by
  induction h with
  | simple => exact all_simple.mpr trivial
  | ofClass => exact all_object.mpr trivial
  | @orNull t _ hn ih =>
    rcases orNull_cases t with ⟨he, -⟩ | ⟨he, ⟨hu, hnull, hmixed⟩ | ⟨us, hu⟩⟩
    · rwa [he]
    · exact he ▸ all_nullable.mpr ⟨admitsNull_of_undivided hu hnull hmixed, ih⟩
    · exact he ▸ all_nullable.mpr ⟨hn us hu, ih⟩
  | array _ _ ihk ihi => exact all_array.mpr ⟨trivial, ihk, ihi⟩
  | anyArray => exact all_array.mpr ⟨trivial, all_simple.mpr trivial, all_simple.mpr trivial⟩
  | @unite ts _ hn ih =>
    have hparts (u : PhpType) (hu : u ∈ ts.flatMap parts) : u.All Settled ∧ u.Undivided := by
      obtain ⟨t, ht, hu⟩ := List.mem_flatMap.mp hu
      refine ⟨all_of_mem_parts (ih t ht) trivial hu, ?_⟩
      cases t with
      | union us => exact (ih _ ht).self.2.2 u hu
      | nullable t =>
        rcases List.mem_pair.mp hu with rfl | rfl
        · -- What is nullable is no union here, and nullable once only.
          rcases form_cases u with hu | ⟨us, rfl⟩ | ⟨t, rfl⟩
          · exact hu
          · exact absurd ht (hn us)
          · exact Bool.noConfusion (ih _ ht).self
        · exact undivided_null
      | _ =>
        obtain rfl := List.mem_singleton.mp hu
        exact trivial
    apply unite_of_parts
    · exact all_simple.mpr trivial
    · exact fun t ht u hu => (hparts u (List.mem_flatMap.mpr ⟨t, ht, hu⟩)).1
    · refine fun ms hlen hnodup hmem => all_union.mpr ⟨⟨hlen, hnodup, fun u hu => ?_⟩, fun u hu => ?_⟩
      · exact (hparts u ((hmem u).mp hu)).2
      · exact (hparts u ((hmem u).mp hu)).1

/-- A union that is flat is formed from flat types, none of which is a nullable union. -/
theorem settled_of_unite (hd : ∀ t ∈ ts, t.All Distinct) (h : (unite ts).All Settled) :
    (∀ t ∈ ts, t.All Settled) ∧ ∀ us, nullable (union us) ∉ ts := by
  have hflat (u : PhpType) (hu : u ∈ ts.flatMap parts) : u.All Settled := by
    rcases unite_cases ts with ⟨hnil, -⟩ | ⟨-, hone⟩ | ⟨ms, he, -, -, hmem⟩
    · rw [hnil] at hu
      cases hu
    · exact hone u hu ▸ h
    · exact (all_union.mp (he ▸ h)).2 u ((hmem u).mpr hu)
  -- Beside another part, a part is a member of a union.
  have hbeside (u v : PhpType) (hu : u ∈ ts.flatMap parts) (hv : v ∈ ts.flatMap parts)
      (hne : v ≠ u) : u.Undivided := by
    rcases unite_cases ts with ⟨hnil, -⟩ | ⟨-, hone⟩ | ⟨ms, he, -, -, hmem⟩
    · rw [hnil] at hu
      cases hu
    · exact absurd ((hone v hv).trans (hone u hu).symm) hne
    · exact (all_union.mp (he ▸ h)).1.2.2 u ((hmem u).mpr hu)
  have hinner (t : PhpType) (ht : nullable t ∈ ts) : t.Undivided ∧ t ≠ null ∧ t ≠ mixed := by
    have hmem (u : PhpType) (hu : u ∈ (nullable t).parts) : u ∈ ts.flatMap parts :=
      List.mem_flatMap.mpr ⟨_, ht, hu⟩
    have hne : t ≠ null := by
      rcases (hd _ ht).self with ⟨-, hne, -⟩ | ⟨us, rfl⟩
      · exact hne
      · exact nofun
    have hu := hbeside t null (hmem t (by simp [parts])) (hmem null (by simp [parts])) hne.symm
    rcases (hd _ ht).self with hself | ⟨us, rfl⟩
    · exact hself
    · exact hu.elim
  refine ⟨fun t ht => ?_, fun us ht => (hinner _ ht).1⟩
  have hmem (u : PhpType) (hu : u ∈ t.parts) : u ∈ ts.flatMap parts :=
    List.mem_flatMap.mpr ⟨t, ht, hu⟩
  cases t with
  | union us =>
    obtain ⟨hlen, hnodup, -⟩ := (hd _ ht).self
    refine all_union.mpr ⟨⟨hlen, hnodup, fun u hu => ?_⟩, fun u hu => hflat u (hmem u hu)⟩
    obtain ⟨v, hv, hne⟩ := exists_ne_of_two_le hlen hnodup u
    exact hbeside u v (hmem u hu) (hmem v hv) hne
  | nullable t =>
    obtain ⟨hu, hnull, hmixed⟩ := hinner t ht
    exact all_nullable.mpr ⟨admitsNull_of_undivided hu hnull hmixed, hflat t (hmem t (by simp [parts]))⟩
  | _ => exact hflat _ (hmem _ (by simp [parts]))

theorem builtApart_of_settled (h : Built t) (hs : t.All Settled) : BuiltApart t := by
  induction h with
  | simple s => exact .simple s
  | ofClass name => exact .ofClass name
  | @orNull t _ ih =>
    rcases orNull_cases t with ⟨he, hu⟩ | ⟨he, -⟩
    · exact .orNull (ih (he ▸ hs)) fun ts ht => absurd ht (hu ts)
    · obtain ⟨hn, hs⟩ := all_nullable.mp (he ▸ hs)
      exact .orNull (ih hs) fun _ _ => hn
  | array _ _ ihk ihi =>
    obtain ⟨-, hk, hi⟩ := all_array.mp hs
    exact .array (ihk hk) (ihi hi)
  | anyArray => exact .anyArray
  | @unite ts h ih =>
    obtain ⟨hflat, hn⟩ := settled_of_unite (fun t ht => distinct_of_built (h t ht)) hs
    exact .unite (fun t ht => ih t ht (hflat t ht)) hn

/-- In a type from the constructors the members of every union are at least two and different, none
of them is nullable, and nothing is nullable that is null, mixed or nullable. The type is flat in
all its parts exactly if null was never added to a union that admitted it and no union was formed
from a nullable one. -/
theorem built_distinct_and_settled_iff (h : Built t) :
    t.All Distinct ∧ (t.All Settled ↔ BuiltApart t) :=
  ⟨distinct_of_built h, builtApart_of_settled h, settled_of_builtApart⟩

theorem nullable_string_or_bool_distinct_and_settled_iff :
    Built (unite [orNull (simple .string), simple .bool]) ∧
      (unite [orNull (simple .string), simple .bool]).All Distinct ∧
      ((unite [orNull (simple .string), simple .bool]).All Settled ↔
        BuiltApart (unite [orNull (simple .string), simple .bool])) :=
  have h : Built (unite [orNull (simple .string), simple .bool]) :=
    built_unite_pair (.orNull (.simple _)) (.simple _)
  ⟨h, built_distinct_and_settled_iff h⟩

/-- A nullable union keeps its form in another union. -/
theorem exists_built_not_settled : ∃ t, Built t ∧ ¬t.All Settled :=
  ⟨unite [orNull (unite [simple .int, simple .string]), simple .bool],
    built_unite_pair (.orNull (built_unite_pair (.simple _) (.simple _))) (.simple _), by decide⟩

end PhpAtlas.PhpType
