import PhpAtlas.Proofs.Mapping.Compound
import PhpAtlas.Proofs.PhpType.Subterms

/-! # What cannot be mapped

Mapping fails only over a type that the registry does not accept, be it the
given type or one inside of it. No type is handed on as a shape that it does
not have, whatever the order of the shapes.
-/

namespace PhpAtlas

open PhpType (mem_subterms_self mem_subtermsOf mem_subterms_of_mem_members)

variable {s shape : Shape} {t u : PhpType} {ts : List PhpType}

theorem Shape.specializes_iff :
    s.specializes shape = true ↔ s = shape ∨ s.parent = some shape := by
  rw [specializes, Bool.or_eq_true, beq_iff_eq, beq_iff_eq]

namespace Registry

variable {r : Registry} {position : Position} {e : UnsupportedShape}

/-- Whether a shape of the registry covers the shape of the type. -/
def accepts (r : Registry) (t : PhpType) : Bool := r.shapes.any t.shape.specializes

theorem of_select_eq_ok (h : r.select position t = .ok shape) :
    shape ∈ r.shapes ∧ t.shape.specializes shape = true := by
  rw [select] at h
  split at h
  · next hf =>
    cases h
    exact ⟨List.mem_of_find?_eq_some hf, List.find?_some hf⟩
  · cases h

theorem of_select_eq_error (h : r.select position t = .error e) :
    r.accepts t = false ∧ t.shape = e.shape := by
  rw [select] at h
  split at h
  · cases h
  · next hf =>
    cases h
    exact ⟨List.any_eq_false.mpr (List.find?_eq_none.mp hf), rfl⟩

/-- The shape of the error is that of a type inside of the given one which the registry does not
accept. -/
def Blames (r : Registry) (t : PhpType) (e : UnsupportedShape) : Prop :=
  ∃ s ∈ t.subterms, s.shape = e.shape ∧ r.accepts s = false

theorem Blames.mono (hu : u.subterms ⊆ t.subterms) (h : r.Blames u e) : r.Blames t e := by
  obtain ⟨s, hs, h⟩ := h
  exact ⟨s, hu hs, h⟩

theorem blames_select (h : r.select position t = .error e) : r.Blames t e :=
  ⟨t, mem_subterms_self t, (of_select_eq_error h).2, (of_select_eq_error h).1⟩

/-! ## Documentation forms -/

theorem exists_of_docsOf_eq_error (h : r.docsOf position ts = .error e) :
    ∃ t ∈ ts, r.doc position t = .error e := by
  induction ts with
  | nil => cases h
  | cons t ts ih =>
    rw [docsOf_cons] at h
    rcases bind_eq_error_iff.mp h with h | ⟨d, -, h⟩
    · exact ⟨t, List.mem_cons_self, h⟩
    · rcases bind_eq_error_iff.mp h with h | ⟨ds, -, h⟩
      · obtain ⟨u, hu, h⟩ := ih h
        exact ⟨u, List.mem_cons_of_mem t hu, h⟩
      · cases h

/-- A type that is mapped as a shape of its own fails only over its components. -/
theorem exists_of_docAs_eq_error (hs : t.shape.specializes shape = true)
    (h : r.docAs position shape t = .error e) :
    ∃ u ∈ t.components, ∃ position, r.doc position u = .error e := by
  rcases Shape.specializes_iff.mp hs with rfl | hp
  · cases t with
    | simple s => cases h
    | classString bound => cases bound <;> cases h
    | object form name => cases form <;> cases h
    | iterable item =>
      rw [PhpType.shape, docAs_iterable] at h
      split at h
      · cases h
      · exact ⟨item, List.mem_cons_self, _, map_eq_error_iff.mp h⟩
    | array key item =>
      have hi : item ∈ (PhpType.array key item).components := by simp [PhpType.components]
      rw [PhpType.shape, docAs_array] at h
      split at h
      · cases h
      · split at h
        · exact ⟨item, hi, _, map_eq_error_iff.mp h⟩
        · rcases bind_eq_error_iff.mp h with h | ⟨k, -, h⟩
          · exact ⟨key, List.mem_cons_self, _, h⟩
          · exact ⟨item, hi, _, map_eq_error_iff.mp h⟩
    | generic name args =>
      rw [PhpType.shape, docAs_generic] at h
      obtain ⟨t, ht, h⟩ := exists_of_docsOf_eq_error (map_eq_error_iff.mp h)
      exact ⟨t, ht, _, h⟩
    | union ts =>
      rw [PhpType.shape, docAs_union] at h
      obtain ⟨t, ht, h⟩ := exists_of_docsOf_eq_error (map_eq_error_iff.mp h)
      exact ⟨t, ht, _, h⟩
    | nullable t =>
      rw [PhpType.shape, docAs_nullable] at h
      exact ⟨t, List.mem_cons_self, _, map_eq_error_iff.mp h⟩
    | intersection ts =>
      rw [PhpType.shape, docAs_intersection] at h
      obtain ⟨t, ht, h⟩ := exists_of_docsOf_eq_error (map_eq_error_iff.mp h)
      exact ⟨t, ht, _, h⟩
  · cases t with
    | object form name =>
      cases form with
      | named => cases hp
      | _ =>
        cases hp
        cases h
    | classString | generic =>
      cases hp
      cases h
    | _ => cases hp

theorem blames_doc (h : r.doc position t = .error e) : r.Blames t e := by
  induction t using PhpType.components_induct generalizing position with
  | step t ih =>
    rcases bind_eq_error_iff.mp h with h | ⟨shape, hs, h⟩
    · exact blames_select h
    · obtain ⟨u, hu, position, h⟩ := exists_of_docAs_eq_error (of_select_eq_ok hs).2 h
      exact (ih u hu h).mono (PhpType.subterms_subset_of_mem_components hu)

/-! ## Hints -/

theorem of_nullableHint_eq_error {own : HintResult} (h : r.nullableHint t own = .error e) :
    own = .error e := by
  unfold nullableHint at h
  split at h
  · exact h
  · cases h
  · cases h
  · cases h
  · split at h
    · rcases bind_eq_error_iff.mp h with h | ⟨b, -, h⟩
      · exact h
      · cases h
    · cases h

theorem exists_of_unionParts_eq_error (h : r.unionParts (r.hintsOf position ts) = .error e) :
    ∃ t ∈ ts, r.hint position t = .error e := by
  induction ts with
  | nil => cases h
  | cons t ts ih =>
    rw [hintsOf_cons, unionParts] at h
    split at h
    · cases h
    · rcases bind_eq_error_iff.mp h with h | ⟨own, -, h⟩
      · exact ⟨t, List.mem_cons_self, h⟩
      · cases own with
        | none => cases h
        | some own =>
          rcases bind_eq_error_iff.mp h with h | ⟨rest, -, h⟩
          · obtain ⟨u, hu, h⟩ := ih h
            exact ⟨u, List.mem_cons_of_mem t hu, h⟩
          · cases h

theorem exists_of_unionHint_eq_error {withNull : Bool}
    (h : r.unionHint (r.hintsOf position ts) withNull = .error e) :
    ∃ t ∈ ts, r.hint position t = .error e := by
  rw [unionHint_eq] at h
  split at h
  · rcases bind_eq_error_iff.mp h with h | ⟨found, -, h⟩
    · exact exists_of_unionParts_eq_error h
    · cases h
  · cases h

theorem exists_of_intersectionParts_eq_error
    (h : intersectionParts (r.hintsOf position ts) = .error e) :
    ∃ t ∈ ts, r.hint position t = .error e := by
  induction ts with
  | nil => cases h
  | cons t ts ih =>
    rw [hintsOf_cons, intersectionParts] at h
    rcases bind_eq_error_iff.mp h with h | ⟨own, -, h⟩
    · exact ⟨t, List.mem_cons_self, h⟩
    · split at h
      · rcases bind_eq_error_iff.mp h with h | ⟨rest, -, h⟩
        · obtain ⟨u, hu, h⟩ := ih h
          exact ⟨u, List.mem_cons_of_mem t hu, h⟩
        · cases h
      · cases h

theorem exists_of_hintAs_union_eq_error
    (h : r.hintAs position .union (.union ts) = .error e) :
    ∃ t ∈ ts, r.hint position t = .error e := by
  have hmem : ∀ t ∈ ts.filter (· != .null), t ∈ ts := fun t ht => List.mem_of_mem_filter ht
  rw [hintAs_union] at h
  split at h
  · cases h
  · next t hf =>
    refine ⟨t, hmem t (hf ▸ List.mem_singleton_self t), ?_⟩
    split at h
    · exact of_nullableHint_eq_error h
    · exact h
  · obtain ⟨t, ht, h⟩ := exists_of_unionHint_eq_error h
    exact ⟨t, hmem t ht, h⟩

/-- A type that is mapped as a shape of its own is refused only over its members. -/
theorem exists_of_hintAs_eq_error (hs : t.shape.specializes shape = true)
    (h : r.hintAs position shape t = .error e) : ∃ u ∈ t.members, r.hint position u = .error e := by
  rcases Shape.specializes_iff.mp hs with rfl | hp
  · cases t with
    | union ts => exact exists_of_hintAs_union_eq_error h
    | nullable t =>
      cases t with
      | union ts =>
        rw [PhpType.shape, hintAs_nullable_union] at h
        obtain ⟨t, ht, h⟩ := exists_of_unionHint_eq_error h
        exact ⟨t, List.mem_of_mem_filter ht, h⟩
      | _ =>
        rw [PhpType.shape, hintAs_nullable (by simp)] at h
        exact ⟨_, List.mem_cons_self, of_nullableHint_eq_error h⟩
    | intersection ts =>
      rw [PhpType.shape, hintAs] at h
      split at h
      · cases h
      · exact exists_of_intersectionParts_eq_error (map_eq_error_iff.mp h)
    | object form name => cases form <;> cases h
    | _ => cases h
  · cases t with
    | object form name =>
      cases form with
      | named => cases hp
      | _ =>
        cases hp
        cases h
    | classString | generic =>
      cases hp
      cases h
    | _ => cases hp

theorem blames_hint (h : r.hint position t = .error e) : r.Blames t e := by
  induction t using PhpType.members_induct with
  | step t ih =>
    cases hs : r.select position t with
    | error e' =>
      rw [hint, selectDeclared, hs] at h
      cases h
      exact blames_select hs
    | ok shape =>
      rw [hint_of_select hs] at h
      split at h
      · cases h
      · obtain ⟨u, hu, h⟩ := exists_of_hintAs_eq_error (of_select_eq_ok hs).2 h
        exact (ih u hu h).mono fun _ hs => mem_subterms_of_mem_members hs hu

/-! ## Forms for every accepted type -/

theorem exists_ok_of_accepts {α : Type} {x : Except UnsupportedShape α}
    (ha : ∀ s ∈ t.subterms, r.accepts s = true) (hx : ∀ e, x = .error e → r.Blames t e) :
    ∃ a, x = .ok a := by
  cases x with
  | ok a => exact ⟨a, rfl⟩
  | error e =>
    obtain ⟨s, hs, -, hn⟩ := hx e rfl
    exact absurd (ha s hs) (Bool.eq_false_iff.mp hn)

theorem accepts_standard (v : Version) (t : PhpType) : (standard v).accepts t = true :=
  List.any_eq_true.mpr ⟨t.shape, of_select_eq_ok (@select_standard v .anywhere t)⟩

/-- A registry of any shapes in any order fails on a type only over a type inside of it that no
shape of the registry covers. A type of which all is covered has a documentation form, and it is
known whether it has a hint; the standard registry covers every type. -/
theorem fails_only_over_unaccepted (r : Registry) (position : Position) (t : PhpType) :
    (∀ e, r.doc position t = .error e ∨ r.hint position t = .error e →
      ∃ s ∈ t.subterms, s.shape = e.shape ∧ r.accepts s = false) ∧
    ((∀ s ∈ t.subterms, r.accepts s = true) →
      (∃ d, r.doc position t = .ok d) ∧ ∃ b, r.hint position t = .ok b) ∧
    ∀ v, (∃ d, (standard v).doc position t = .ok d) ∧ ∃ b, (standard v).hint position t = .ok b := by
  have hcovered (r : Registry) (ha : ∀ s ∈ t.subterms, r.accepts s = true) :
      (∃ d, r.doc position t = .ok d) ∧ ∃ b, r.hint position t = .ok b :=
    ⟨exists_ok_of_accepts ha fun _ => blames_doc, exists_ok_of_accepts ha fun _ => blames_hint⟩
  refine ⟨?_, hcovered r, fun v => hcovered (standard v) fun s _ => accepts_standard v s⟩
  rintro e (h | h)
  · exact blames_doc h
  · exact blames_hint h

/-- A general shape before the special one, and a type of a shape that is not there two levels
down. -/
theorem fails_only_over_unaccepted_iterable :
    let r : Registry := ⟨[.union, .object, .selfReference, .nullable, .simple .string], .of 8 0⟩
    let item : PhpType := .iterable (.object .named "A")
    let t : PhpType := .union [.object .self "A", .nullable item]
    let u : PhpType := .union [.generic "A" [.classString (some "B")], .nullable (.classString none)]
    r.doc .result t = .error ⟨.iterable, .result⟩ ∧ r.hint .result t = .error ⟨.iterable, .result⟩ ∧
      (∃ s ∈ t.subterms, s.shape = .iterable ∧ r.accepts s = false) ∧
      (∃ d, r.doc .anywhere u = .ok d) ∧ ∃ b, r.hint .anywhere u = .ok b := by
  intro r item t u
  have hd : r.doc .result t = .error ⟨.iterable, .result⟩ := by decide +kernel
  have hh : r.hint .result t = .error ⟨.iterable, .result⟩ := by decide +kernel
  have hu : ∀ s ∈ u.subterms, r.accepts s = true := by decide +kernel
  exact ⟨hd, hh, (fails_only_over_unaccepted r .result t).1 _ (.inl hd),
    (fails_only_over_unaccepted r .anywhere u).2.1 hu⟩

end Registry

end PhpAtlas
