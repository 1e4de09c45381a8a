import PhpAtlas.Proofs.Mapping.Refusal

/-! # More shapes behind those of a registry

The first shape that covers a type decides, so shapes that are added behind all
others change no result. They only give results for types over which the registry
failed.
-/

namespace PhpAtlas

section Except

variable {ε α β : Type} {x y : Except ε α} {f g : α → Except ε β}

/-- The result of the first is also that of the second, if it has one. -/
def Kept (x y : Except ε α) : Prop := ∀ a, x = .ok a → y = .ok a

namespace Kept

theorem refl (x : Except ε α) : Kept x x := fun _ h => h

theorem error (e : ε) (y : Except ε α) : Kept (.error e) y := fun _ h => nomatch h

theorem bind (h : Kept x y) (hf : ∀ a, x = .ok a → Kept (f a) (g a)) :
    Kept (x >>= f) (y >>= g) := by
  intro b hb
  obtain ⟨a, ha, hb⟩ := exists_of_bind_eq_ok hb
  rw [h a ha]
  exact hf a ha b hb

theorem map (h : Kept x y) (f : α → β) : Kept (f <$> x) (f <$> y) := by
  intro b hb
  obtain ⟨a, ha, rfl⟩ := map_eq_ok_iff.mp hb
  exact map_eq_ok_iff.mpr ⟨a, h a ha, rfl⟩

end Kept

end Except

namespace Registry

/-- The registry with more shapes behind its own. -/
def append (r : Registry) (more : List Shape) : Registry := { r with shapes := r.shapes ++ more }

/-- The result for a documentation form stays as it is. -/
abbrev DocKept (r : Registry) (more : List Shape) (position : Position) (t : PhpType) : Prop :=
  Kept (r.doc position t) ((r.append more).doc position t)

/-- The result for a hint stays as it is. -/
abbrev HintKept (r : Registry) (more : List Shape) (position : Position) (t : PhpType) : Prop :=
  Kept (r.hint position t) ((r.append more).hint position t)

variable (r : Registry) (more : List Shape) {shape : Shape} {t : PhpType} {ts : List PhpType}

theorem kept_select (position : Position) :
    Kept (r.select position t) ((r.append more).select position t) := by
  intro shape h
  rw [select] at h
  split at h
  · next hf =>
    have hf' : (r.append more).shapes.find? t.shape.specializes = some shape := by
      cases h
      rw [append, List.find?_append, hf, Option.some_or]
    rw [select, hf']
  · cases h

/-- A shape that is mapped as its parent has no parts that are mapped on their own. -/
theorem mapAs_append_of_parent (position : Position) (hp : t.shape.parent = some shape) :
    (r.append more).docAs position shape t = r.docAs position shape t ∧
      (r.append more).hintAs position shape t = r.hintAs position shape t := by
  cases t with
  | object form name =>
    cases form with
    | named => cases hp
    | _ =>
      cases hp
      exact ⟨rfl, rfl⟩
  | classString | generic =>
    cases hp
    exact ⟨rfl, rfl⟩
  | _ => cases hp

/-! ## Documentation forms -/

theorem kept_docsOf {position : Position}
    (hm : ∀ t ∈ ts, r.DocKept more position t) :
    Kept (r.docsOf position ts) ((r.append more).docsOf position ts) := by
  induction ts with
  | nil => exact .refl _
  | cons t ts ih =>
    obtain ⟨ht, hts⟩ := List.forall_mem_cons.mp hm
    rw [docsOf_cons, docsOf_cons]
    exact ht.bind fun d _ => (ih hts).map (d :: ·)

/-- The form of a type that is mapped as a shape of its own follows those of its components. -/
theorem kept_docAs (position : Position) (hs : t.shape.specializes shape = true)
    (hm : ∀ u ∈ t.components, ∀ position, r.DocKept more position u) :
    Kept (r.docAs position shape t) ((r.append more).docAs position shape t) := by
  rcases Shape.specializes_iff.mp hs with rfl | hp
  · cases t with
    | simple => exact .refl _
    | classString bound => cases bound <;> exact .refl _
    | object form => cases form <;> exact .refl _
    | iterable item =>
      have hi := hm item List.mem_cons_self .anywhere
      rw [PhpType.shape, docAs_iterable, docAs_iterable]
      split
      · exact .refl _
      · exact hi.map _
    | array key item =>
      have hk := hm key List.mem_cons_self .anywhere
      have hi := hm item (by simp [PhpType.components]) .anywhere
      rw [PhpType.shape, docAs_array, docAs_array]
      split
      · exact .refl _
      · split
        · exact hi.map _
        · exact hk.bind fun k _ => hi.bind fun d _ => .refl _
    | generic name args =>
      rw [PhpType.shape, docAs_generic, docAs_generic]
      exact (kept_docsOf r more fun u hu => hm u hu _).map _
    | union ts =>
      rw [PhpType.shape, docAs_union, docAs_union]
      exact (kept_docsOf r more fun u hu => hm u hu _).map _
    | nullable t =>
      rw [PhpType.shape, docAs_nullable, docAs_nullable]
      exact (hm t List.mem_cons_self _).map _
    | intersection ts =>
      rw [PhpType.shape, docAs_intersection, docAs_intersection]
      exact (kept_docsOf r more fun u hu => hm u hu _).map _
  · rw [(mapAs_append_of_parent r more position hp).1]
    exact .refl _

theorem kept_doc (position : Position) (t : PhpType) :
    r.DocKept more position t := by
  induction t using PhpType.components_induct generalizing position with
  | step t ih =>
    refine (kept_select r more position).bind fun shape hs => ?_
    exact kept_docAs r more position (of_select_eq_ok hs).2 fun u hu position => ih u hu position

/-! ## Hints -/

theorem hintOrNull_append (own : TypeHint) : (r.append more).hintOrNull own = r.hintOrNull own := by
  cases own <;> rfl

theorem kept_nullableHint {own own' : HintResult} (ho : Kept own own') :
    Kept (r.nullableHint t own) ((r.append more).nullableHint t own') := by
  unfold nullableHint
  split
  · exact ho
  · exact .refl _
  · exact .refl _
  · exact .refl _
  · show Kept _ (if r.supports .nullableType then _ else _)
    split
    · exact ho.bind fun own _ => by
        cases own with
        | none => exact .refl _
        | some own =>
          rw [Option.bind_some, Option.bind_some, hintOrNull_append]
          exact .refl _
    · exact .refl _

variable {position : Position}

/-- The members of a declared union follow their own hints, up to the first that has none. -/
theorem kept_unionParts
    (hm : ∀ t ∈ ts, r.HintKept more position t) :
    Kept (r.unionParts (r.hintsOf position ts))
      ((r.append more).unionParts ((r.append more).hintsOf position ts)) := by
  induction ts with
  | nil => exact .refl _
  | cons t ts ih =>
    obtain ⟨ht, hts⟩ := List.forall_mem_cons.mp hm
    rw [hintsOf_cons, hintsOf_cons, unionParts, unionParts]
    show Kept _ (if r.barredFromUnion t then _ else _)
    split
    · exact .refl _
    · refine ht.bind fun own _ => ?_
      cases own with
      | none => exact .refl _
      | some own => exact (ih hts).map (Option.map (hintParts own ++ ·))

theorem kept_unionHint {withNull : Bool}
    (hm : ∀ t ∈ ts, r.HintKept more position t) :
    Kept (r.unionHint (r.hintsOf position ts) withNull)
      ((r.append more).unionHint ((r.append more).hintsOf position ts) withNull) := by
  rw [unionHint_eq, unionHint_eq]
  show Kept _ (if r.supports .unionTypes then _ else _)
  split
  · exact (kept_unionParts r more hm).map fun found =>
      found.bind fun found => united? (found ++ nulls withNull)
  · exact .refl _

theorem kept_intersectionParts
    (hm : ∀ t ∈ ts, r.HintKept more position t) :
    Kept (intersectionParts (r.hintsOf position ts))
      (intersectionParts ((r.append more).hintsOf position ts)) := by
  induction ts with
  | nil => exact .refl _
  | cons t ts ih =>
    obtain ⟨ht, hts⟩ := List.forall_mem_cons.mp hm
    rw [hintsOf_cons, hintsOf_cons, intersectionParts, intersectionParts]
    refine ht.bind fun own _ => ?_
    split
    · exact (ih hts).map (Option.map (TypeHint.name _ :: ·))
    · exact .refl _

theorem kept_hintAs_union
    (hm : ∀ t ∈ ts, r.HintKept more position t) :
    Kept (r.hintAs position .union (.union ts))
      ((r.append more).hintAs position .union (.union ts)) := by
  have hm : ∀ t ∈ ts.filter (· != .null), r.HintKept more position t :=
    fun t ht => hm t (List.mem_of_mem_filter ht)
  rw [hintAs_union, hintAs_union]
  split
  · exact .refl _
  · next t hf =>
    have ht := hm t (hf ▸ List.mem_singleton_self t)
    split
    · exact kept_nullableHint r more ht
    · exact ht
  · exact kept_unionHint r more hm

/-- The hint of a type that is mapped as a shape of its own follows those of its members. -/
theorem kept_hintAs (hs : t.shape.specializes shape = true)
    (hm : ∀ u ∈ t.members, r.HintKept more position u) :
    Kept (r.hintAs position shape t) ((r.append more).hintAs position shape t) := by
  rcases Shape.specializes_iff.mp hs with rfl | hp
  · cases t with
    | union ts => exact kept_hintAs_union r more hm
    | nullable t =>
      cases t with
      | union ts =>
        rw [PhpType.shape, hintAs_nullable_union, hintAs_nullable_union]
        exact kept_unionHint r more fun t ht => hm t (List.mem_of_mem_filter ht)
      | _ =>
        rw [PhpType.shape, hintAs_nullable (by simp), hintAs_nullable (by simp)]
        exact kept_nullableHint r more (hm _ List.mem_cons_self)
    | intersection ts =>
      rw [PhpType.shape, hintAs, hintAs]
      show Kept _ (if !r.supports .intersectionTypes then _ else _)
      split
      · exact .refl _
      · exact (kept_intersectionParts r more hm).map _
    | object form => cases form <;> exact .refl _
    | _ => exact .refl _
  · rw [(mapAs_append_of_parent r more position hp).2]
    exact .refl _

theorem kept_hint (t : PhpType) : r.HintKept more position t := by
  induction t using PhpType.members_induct with
  | step t ih =>
    cases hs : r.select position t with
    | error e =>
      rw [HintKept, hint, selectDeclared, hs]
      exact .error e _
    | ok shape =>
      rw [HintKept, hint_of_select hs, hint_of_select (kept_select r more position shape hs)]
      show Kept _ (if untyped r.version position then _ else _)
      split
      · exact .refl _
      · exact kept_hintAs r more (of_select_eq_ok hs).2 ih

/-- A registry of any shapes keeps its results, that a type has no hint included, when any shapes
are added behind its own. -/
theorem append_conservative (r : Registry) (more : List Shape) (position : Position) (t : PhpType) :
    (∀ d, r.doc position t = .ok d → (r.append more).doc position t = .ok d) ∧
    ∀ b, r.hint position t = .ok b → (r.append more).hint position t = .ok b :=
  ⟨kept_doc r more position t, kept_hint r more t⟩

/-- A union without a hint, since `mixed` comes before a member that the registry does not cover,
and a reference that is mapped as an object although its own shape is added. -/
theorem append_conservative_early :
    let r : Registry := ⟨[.union, .object, .simple .mixed], .of 8 0⟩
    let t : PhpType := .union [.object .self "A", .simple .mixed, .iterable (.simple .int)]
    let u : PhpType := .union [.object .self "A", .simple .mixed]
    let d : DocType := .union [.ofClass "A", .name "mixed"]
    r.hint .result t = .ok none ∧ (r.append allShapes).hint .result t = .ok none ∧
      r.doc .anywhere u = .ok d ∧ (r.append allShapes).doc .anywhere u = .ok d := by
  intro r t u d
  have ht : r.hint .result t = .ok none := by decide +kernel
  have hu : r.doc .anywhere u = .ok d := by decide +kernel
  exact ⟨ht, (append_conservative r allShapes .result t).2 none ht,
    hu, (append_conservative r allShapes .anywhere u).1 d hu⟩

end Registry

end PhpAtlas
