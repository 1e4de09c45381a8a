import PhpAtlas.Proofs.Mapping.Documentation
import PhpAtlas.Proofs.PhpType.NonNull

/-! # Unions in documentation forms

The standard registry gives a type the same form for documentation comments in all versions
and at all positions. A rule for the unions in the form is a rule for the forms of all types
that the type is built from, as null is only added at the end of a union. So it can be said of the
type when the form repeats something.
-/

namespace PhpAtlas

/-! ## Forms in forms -/

namespace DocType

variable {q : List DocType → Prop} {d e : DocType} {ds : List DocType} {s : String}

mutual

/-- The form and all forms in it. -/
def subforms : DocType → List DocType
  | name s => [name s]
  | array item => array item :: subforms item
  | generic n args => generic n args :: subformsOf args
  | nullable t => nullable t :: subforms t
  | union ts => union ts :: subformsOf ts
  | intersection ts => intersection ts :: subformsOf ts

def subformsOf : List DocType → List DocType
  | [] => []
  | t :: ts => subforms t ++ subformsOf ts

end

mutual

/-- The forms of which a value has one, when the unions in a union are written out. -/
def alternatives : DocType → List DocType
  | union ts => alternativesOf ts
  | nullable t => alternatives t ++ [name "null"]
  | t => [t]

def alternativesOf : List DocType → List DocType
  | [] => []
  | t :: ts => alternatives t ++ alternativesOf ts

end

/-- The members of each union in the form keep the rule. -/
def EachUnion (q : List DocType → Prop) (d : DocType) : Prop :=
  ∀ ds, union ds ∈ d.subforms → q ds

/-- No alternative is written twice in a union of the forms. -/
def PrintedOnce (ds : List DocType) : Prop := (union ds).alternatives.Nodup

theorem mem_subformsOf : e ∈ subformsOf ds ↔ ∃ d ∈ ds, e ∈ d.subforms := by
  induction ds with
  | nil => simp [subformsOf]
  | cons d ds ih => simp [subformsOf, ih]

theorem alternativesOf_eq_flatMap (ds : List DocType) :
    alternativesOf ds = ds.flatMap alternatives := by
  induction ds with
  | nil => rfl
  | cons d ds ih => rw [alternativesOf, ih, List.flatMap_cons]

theorem alternatives_union : (union ds).alternatives = ds.flatMap alternatives :=
  alternativesOf_eq_flatMap ds

theorem forall_union_mem_subformsOf :
    (∀ us, union us ∈ subformsOf ds → q us) ↔ ∀ d ∈ ds, d.EachUnion q := by
  simp only [mem_subformsOf]
  exact ⟨fun h d hd us hu => h us ⟨d, hd, hu⟩, fun h us ⟨d, hd, hu⟩ => h d hd us hu⟩

@[simp] theorem eachUnion_name : (name s).EachUnion q := by
  simp [EachUnion, subforms]

@[simp] theorem eachUnion_array : (array d).EachUnion q ↔ d.EachUnion q := by
  simp [EachUnion, subforms]

@[simp] theorem eachUnion_nullable : (nullable d).EachUnion q ↔ d.EachUnion q := by
  simp [EachUnion, subforms]

@[simp] theorem eachUnion_generic : (generic s ds).EachUnion q ↔ ∀ d ∈ ds, d.EachUnion q := by
  rw [← forall_union_mem_subformsOf]
  simp [EachUnion, subforms]

@[simp] theorem eachUnion_intersection :
    (intersection ds).EachUnion q ↔ ∀ d ∈ ds, d.EachUnion q := by
  rw [← forall_union_mem_subformsOf]
  simp [EachUnion, subforms]

@[simp] theorem eachUnion_union :
    (union ds).EachUnion q ↔ q ds ∧ ∀ d ∈ ds, d.EachUnion q := by
  rw [← forall_union_mem_subformsOf]
  simp [EachUnion, subforms]

/-- The form is neither a union nor nullable. -/
def Undivided : DocType → Prop
  | union _ | nullable _ => False
  | _ => True

theorem alternatives_of_undivided (h : d.Undivided) :
    d.alternatives = [d] := by
  cases d with
  | union | nullable => exact h.elim
  | _ => rfl

theorem classText_ne_null : classText s ≠ "null" := by
  intro he
  have hlist := congrArg String.toList he
  rw [classText, String.toList_append] at hlist
  cases hlist

end DocType

/-! ## The form of a type -/

namespace PhpType

open DocType (EachUnion PrintedOnce)
open Registry (docOrNull)

variable {p : PhpType → Prop} {t u : PhpType} {ts : List PhpType} {d : DocType}
variable {ds : List DocType} {q : List DocType → Prop} {v : Version} {position : Position}

mutual

/-- The form that the type has for documentation comments in all versions and at all positions. -/
def docForm : PhpType → DocType
  | simple s => .name s.text
  | classString (some name) => .generic "class-string" [.ofClass name]
  | classString none => .name "class-string"
  | iterable item =>
      if item = mixed then .name "iterable" else .generic "iterable" [docForm item]
  | array key item =>
      if key = mixed ∧ item = mixed then .name "array"
      else if key = mixed ∨ key = simple .int then .array (docForm item)
      else .generic "array" [docForm key, docForm item]
  | object .named name => .ofClass name
  | object .self _ => .name "self"
  | object .static _ => .name "static"
  | object .parent _ => .name "parent"
  | generic name args => .generic (DocType.classText name) (docForms args)
  | union ts => .union (docForms ts).eraseDups
  | nullable t => docOrNull (docForm t)
  | intersection ts => .intersection (docForms ts)

def docForms : List PhpType → List DocType
  | [] => []
  | t :: ts => docForm t :: docForms ts

end

theorem docForms_eq_map (ts : List PhpType) : docForms ts = ts.map docForm := by
  induction ts with
  | nil => rfl
  | cons t ts ih => rw [docForms, ih, List.map_cons]

theorem mem_docForms : d ∈ docForms ts ↔ ∃ t ∈ ts, t.docForm = d := by
  rw [docForms_eq_map, List.mem_map]

theorem forall_mem_docForms {r : DocType → Prop} :
    (∀ d ∈ docForms ts, r d) ↔ ∀ t ∈ ts, r t.docForm := by
  simp [mem_docForms]

theorem docsOf_eq_docForms
    (h : ∀ t ∈ ts, (Registry.standard v).doc position t = .ok t.docForm) :
    (Registry.standard v).docsOf position ts = .ok (docForms ts) := by
  rw [Registry.docsOf_eq_ok_iff, docForms_eq_map, List.forall₂_map_right_iff, List.forall₂_same]
  exact h

theorem doc_eq_docForm : (Registry.standard v).doc position t = .ok t.docForm := by
  induction t using induct generalizing position with
  | simple => exact Registry.doc_simple
  | classString bound =>
    rw [Registry.doc_standard]
    cases bound <;> rfl
  | object form name =>
    rw [Registry.doc_standard]
    cases form <;> rfl
  | iterable item ih =>
    rw [Registry.doc_standard, shape, Registry.docAs_iterable, docForm, ih]
    split <;> rfl
  | array key item ihk ihi =>
    rw [Registry.doc_standard, shape, Registry.docAs_array, docForm, ihk, ihi]
    split
    · rfl
    · split <;> rfl
  | generic name args ih =>
    rw [Registry.doc_standard, shape, Registry.docAs_generic,
      docsOf_eq_docForms fun t ht => ih t ht]
    rfl
  | union ts ih =>
    rw [Registry.doc_standard, shape, Registry.docAs_union, docsOf_eq_docForms fun t ht => ih t ht]
    rfl
  | nullable t ih =>
    rw [Registry.doc_standard, shape, Registry.docAs_nullable, ih]
    rfl
  | intersection ts ih =>
    rw [Registry.doc_standard, shape, Registry.docAs_intersection,
      docsOf_eq_docForms fun t ht => ih t ht]
    rfl

theorem docForm_eq_null_iff : t.docForm = .name "null" ↔ t = null := by
  refine ⟨fun h => ?_, fun h => h ▸ rfl⟩
  cases t with
  | simple s => cases s <;> simp_all [docForm, SimpleType.text, null]
  | classString bound => cases bound <;> simp [docForm] at h
  | object form name =>
    cases form with
    | named => exact absurd (DocType.name.inj h) DocType.classText_ne_null
    | _ => simp [docForm] at h
  | iterable =>
    rw [docForm] at h
    split at h <;> simp at h
  | array =>
    rw [docForm] at h
    split at h
    · simp at h
    · split at h <;> simp at h
  | nullable t =>
    rw [docForm] at h
    unfold docOrNull at h
    split at h <;> cases h
  | _ => cases h

theorem null_mem_docForms : .name "null" ∈ docForms ts ↔ null ∈ ts := by
  simp [mem_docForms, docForm_eq_null_iff]

/-! ## A rule for the unions -/

/-- A property of all types in a type is one of the type and of its components. -/
theorem all_iff_components : t.All p ↔ p t ∧ ∀ u ∈ t.components, u.All p := by
  cases t with
  | simple | classString | object => simp [All, subterms, components]
  | iterable | nullable => simp [All, subterms, components]
  | array => rw [all_array]; simp [components]
  | generic | union | intersection =>
    simp only [All, subterms, components, List.forall_mem_cons, mem_subtermsOf]
    grind

theorem docOrNull_eq_union : docOrNull d = .union ds ↔
    (∃ es, d = .union es ∧ es ++ [.name "null"] = ds) ∨
      ∃ es, d = .intersection es ∧ [.intersection es, .name "null"] = ds := by
  cases d <;> simp [docOrNull]

theorem alternatives_docOrNull : (docOrNull d).alternatives = d.alternatives ++ [.name "null"] := by
  cases d with
  | union ds =>
    rw [docOrNull, DocType.alternatives_union, DocType.alternatives_union, List.flatMap_append]
    rfl
  | _ => rfl

theorem eachUnion_docOrNull (hq : ∀ ds d, q (ds ++ [d]) → q ds) : (docOrNull d).EachUnion q ↔
    (∀ ds, docOrNull d = .union ds → q ds) ∧ d.EachUnion q := by
  cases d with
  | union ds =>
    simp only [docOrNull, DocType.eachUnion_union, DocType.union.injEq, forall_eq',
      List.forall_mem_append, List.forall_mem_singleton, DocType.eachUnion_name, and_true]
    constructor
    · rintro ⟨h, hds⟩
      exact ⟨h, hq _ _ h, hds⟩
    · rintro ⟨h, -, hds⟩
      exact ⟨h, hds⟩
  | intersection ds => simp [docOrNull]
  | _ => simp [docOrNull]

/-- A rule that null at the end of a union does not make true holds for each union in the form of
the type exactly if it holds for the form of each type in the type. -/
theorem eachUnion_docForm_iff (hq : ∀ ds d, q (ds ++ [d]) → q ds) : t.docForm.EachUnion q ↔
    t.All fun s => ∀ ds, s.docForm = .union ds → q ds := by
  induction t using induct with
  | simple => simp [all_simple, docForm]
  | classString bound =>
    rw [all_iff_components]
    cases bound <;> simp [docForm, components, DocType.ofClass]
  | object form name =>
    rw [all_iff_components]
    cases form <;> simp [docForm, components, DocType.ofClass]
  | iterable item ih =>
    rw [all_iff_components, docForm]
    split
    · next h => simp [h, components, mixed, all_simple, docForm]
    · simp [components, ih]
  | array key item ihk ihi =>
    rw [all_iff_components, docForm]
    split
    · next h => simp [h.1, h.2, components, mixed, all_simple, docForm]
    · split
      · next h => rcases h with rfl | rfl <;> simp [components, ihi, mixed, all_simple, docForm]
      · simp [components, ihk, ihi]
  | generic name args ih =>
    rw [all_iff_components, docForm, DocType.eachUnion_generic, forall_mem_docForms]
    simpa [components] using forall₂_congr ih
  | union ts ih =>
    rw [all_iff_components, docForm, DocType.eachUnion_union]
    simp only [List.mem_eraseDups, forall_mem_docForms, DocType.union.injEq, forall_eq']
    exact and_congr_right fun _ => forall₂_congr ih
  | nullable t ih =>
    rw [all_iff_components, docForm, eachUnion_docOrNull hq, ih]
    simp [components]
  | intersection ts ih =>
    rw [all_iff_components, docForm, DocType.eachUnion_intersection, forall_mem_docForms]
    simpa [components] using forall₂_congr ih

/-! ## Repeated members -/

/-- The type is not a nullable union with null as a member. -/
def NullOutside : PhpType → Prop
  | nullable (union us) => null ∉ us
  | _ => True

/-- Members that are documented differently have no alternative that is documented alike, and
what is nullable does not have null as an alternative. -/
def AlternativesApart : PhpType → Prop
  | union ts => ∀ s ∈ ts, ∀ t ∈ ts, s.docForm ≠ t.docForm →
      ∀ a ∈ s.alternatives, ∀ b ∈ t.alternatives, a.docForm ≠ b.docForm
  | nullable t => null ∉ t.alternatives
  | _ => True

theorem undivided_docForm (h : t.Undivided) : t.docForm.Undivided := by
  cases t with
  | union | nullable => exact h.elim
  | classString bound => cases bound <;> trivial
  | object form name => cases form <;> trivial
  | iterable =>
    rw [docForm]
    split <;> trivial
  | array =>
    rw [docForm]
    split
    · trivial
    · split <;> trivial
  | _ => trivial

theorem alternatives_docForm (h : t.Undivided) : t.docForm.alternatives = [t.docForm] :=
  DocType.alternatives_of_undivided (undivided_docForm h)

/-- A form has the forms of the alternatives of the type. -/
theorem mem_alternatives_docForm : d ∈ t.docForm.alternatives ↔
    ∃ a ∈ t.alternatives, a.docForm = d := by
  have undivided {t : PhpType} (h : t.Undivided) : d ∈ t.docForm.alternatives ↔
      ∃ a ∈ t.alternatives, a.docForm = d := by
    rw [alternatives_docForm h, alternatives_of_undivided h]
    simp [eq_comm]
  induction t using induct with
  | union ts ih =>
    rw [docForm, DocType.alternatives_union, alternatives]
    simp only [List.mem_flatMap, List.mem_eraseDups, mem_docForms, exists_exists_and_eq_and,
      mem_alternativesOf]
    grind
  | nullable t ih =>
    have hnull : null.docForm = .name "null" := rfl
    rw [docForm, alternatives_docOrNull, alternatives, List.mem_append]
    simp only [ih, List.mem_cons, exists_eq_or_imp, hnull]
    grind
  | _ => exact undivided trivial

theorem null_mem_alternatives_docForm :
    .name "null" ∈ t.docForm.alternatives ↔ null ∈ t.alternatives := by
  simp [mem_alternatives_docForm, docForm_eq_null_iff]

/-- The members in the form of a type are different, unless it is a nullable union of null. -/
theorem nodup_docForm_iff (hd : t.Distinct) :
    (∀ ds, t.docForm = .union ds → ds.Nodup) ↔ t.NullOutside := by
  rcases form_cases t with hu | ⟨ts, rfl⟩ | ⟨t, rfl⟩
  · have hform := undivided_docForm hu
    refine iff_of_true (fun ds hds => ?_) ?_
    · rw [hds] at hform
      exact hform.elim
    · cases t with
      | nullable => exact hu.elim
      | _ => trivial
  · refine iff_of_true (fun ds hds => ?_) trivial
    obtain rfl := DocType.union.inj hds
    exact nodup_eraseDups _
  · rcases hd with ⟨hu, -⟩ | ⟨us, rfl⟩
    · have hform := undivided_docForm hu
      refine iff_of_true (fun ds hds => ?_) ?_
      · rcases docOrNull_eq_union.mp hds with ⟨es, he, -⟩ | ⟨es, -, rfl⟩
        · rw [he] at hform
          exact hform.elim
        · simp
      · cases t with
        | union => exact hu.elim
        | _ => trivial
    · have hnodup := nodup_eraseDups (docForms us)
      simp only [docForm, docOrNull, DocType.union.injEq, forall_eq', NullOutside]
      rw [← null_mem_docForms, ← List.mem_eraseDups (l := docForms us)]
      simp [List.nodup_append, hnodup]
      grind

/-- Two types have no alternative that is documented alike. -/
theorem disjoint_alternatives_iff {s t : PhpType} :
    s.docForm.alternatives.Disjoint t.docForm.alternatives ↔
      ∀ a ∈ s.alternatives, ∀ b ∈ t.alternatives, a.docForm ≠ b.docForm := by
  simp only [List.Disjoint, mem_alternatives_docForm]
  constructor
  · exact fun h a ha b hb he => h ⟨a, ha, he⟩ ⟨b, hb, rfl⟩
  · rintro h d ⟨a, ha, rfl⟩ ⟨b, hb, he⟩
    exact h a ha b hb he.symm

/-- The form of a union has no alternative twice if that of no member has, and members with
different forms have nothing in common. -/
theorem nodup_alternatives_union_iff : (union ts).docForm.alternatives.Nodup ↔
    (∀ t ∈ ts, t.docForm.alternatives.Nodup) ∧ (union ts).AlternativesApart := by
  have hnodup := nodup_eraseDups (docForms ts)
  have hsymm : Std.Symm (Function.onFun List.Disjoint DocType.alternatives) :=
    ⟨fun _ _ h _ ha hb => h hb ha⟩
  have hpairs : (docForms ts).eraseDups.Pairwise
        (Function.onFun List.Disjoint DocType.alternatives) ↔
      ∀ d ∈ docForms ts, ∀ e ∈ docForms ts, d ≠ e → d.alternatives.Disjoint e.alternatives := by
    simp only [← List.mem_eraseDups (l := docForms ts)]
    exact ⟨fun h d hd e he hne => h.forall hd he hne, hnodup.pairwise_of_forall_ne⟩
  rw [docForm, DocType.alternatives_union, List.nodup_flatMap, hpairs]
  simp only [List.mem_eraseDups, forall_mem_docForms, disjoint_alternatives_iff, AlternativesApart]

theorem nodup_alternatives_nullable_iff : (nullable t).docForm.alternatives.Nodup ↔
    t.docForm.alternatives.Nodup ∧ (nullable t).AlternativesApart := by
  rw [docForm, alternatives_docOrNull, ← List.concat_eq_append, List.nodup_concat,
    null_mem_alternatives_docForm, and_comm]
  rfl

theorem nodup_alternatives_docForm (ha : t.All AlternativesApart) :
    t.docForm.alternatives.Nodup := by
  have undivided {t : PhpType} (h : t.Undivided) : t.docForm.alternatives.Nodup := by
    rw [alternatives_docForm h]
    exact List.nodup_singleton _
  induction t using induct with
  | union ts ih =>
    obtain ⟨hself, hall⟩ := all_union.mp ha
    exact nodup_alternatives_union_iff.mpr ⟨fun t ht => ih t ht (hall t ht), hself⟩
  | nullable t ih =>
    obtain ⟨hself, hall⟩ := all_nullable.mp ha
    exact nodup_alternatives_nullable_iff.mpr ⟨ih hall, hself⟩
  | _ => exact undivided trivial

/-- Where the unions in it are printed once, the alternatives of the type are apart. -/
theorem alternativesApart_of_docForm (hd : t.Distinct)
    (h : ∀ ds, t.docForm = .union ds → PrintedOnce ds) : t.AlternativesApart := by
  rcases form_cases t with hu | ⟨ts, rfl⟩ | ⟨t, rfl⟩
  · cases t with
    | union | nullable => exact hu.elim
    | _ => trivial
  · exact (nodup_alternatives_union_iff.mp (h _ rfl)).2
  · rcases hd with ⟨hu, hne, -⟩ | ⟨us, rfl⟩
    · rw [AlternativesApart, alternatives_of_undivided hu, List.mem_singleton]
      exact hne.symm
    · exact (nodup_alternatives_nullable_iff (t := union us).mp (h _ rfl)).2

/-- No form has an alternative twice in a union of it exactly if the alternatives of all types in
the type are apart. -/
theorem eachUnion_printedOnce_iff (hd : t.All Distinct) :
    t.docForm.EachUnion PrintedOnce ↔ t.All AlternativesApart := by
  have hq (ds : List DocType) (d : DocType) (h : PrintedOnce (ds ++ [d])) : PrintedOnce ds := by
    rw [PrintedOnce, DocType.alternatives_union] at h ⊢
    rw [List.flatMap_append] at h
    exact (List.nodup_append.mp h).1
  rw [eachUnion_docForm_iff hq]
  refine ⟨fun h s hs => alternativesApart_of_docForm (hd s hs) (h s hs), fun h => ?_⟩
  induction t using components_induct with
  | step t ih =>
    obtain ⟨-, hd⟩ := all_iff_components.mp hd
    rw [all_iff_components]
    refine ⟨fun ds hds => ?_, fun u hu => ?_⟩
    · rw [PrintedOnce, ← hds]
      exact nodup_alternatives_docForm h
    · exact ih u hu (hd u hu) ((all_iff_components.mp h).2 u hu)

theorem eachUnion_nodup_iff (hd : t.All Distinct) :
    t.docForm.EachUnion List.Nodup ↔ t.All NullOutside := by
  rw [eachUnion_docForm_iff fun ds d h => (List.nodup_append.mp h).1]
  exact forall₂_congr fun s hs => nodup_docForm_iff (hd s hs)

end PhpType

end PhpAtlas
