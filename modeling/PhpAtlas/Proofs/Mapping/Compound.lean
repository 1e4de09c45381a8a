import Mathlib.Data.List.Nodup
import PhpAtlas.Mapping.Doc
import PhpAtlas.Mapping.Hint
import PhpAtlas.Proofs.PhpType.Subterms

/-! # Forms of compound types

What a registry makes of a compound type depends on the members of the type and
on what it makes of each of them. The standard registry maps every type as its
own shape.
-/

namespace PhpAtlas

open PhpType (mixed null)

variable {r : Registry} {v : Version} {position : Position} {shape : Shape} {t : PhpType}
variable {ts : List PhpType} {b : TypeHint}

/-! ## Results -/

section Except

variable {ε α β : Type} {x : Except ε α}

theorem exists_of_bind_eq_ok {f : α → Except ε β} {y : β} (h : x >>= f = .ok y) :
    ∃ a, x = .ok a ∧ f a = .ok y := by
  cases x with
  | error => cases h
  | ok a => exact ⟨a, rfl, h⟩

theorem map_eq_ok_iff {f : α → β} {y : β} : f <$> x = .ok y ↔ ∃ a, x = .ok a ∧ f a = y := by
  cases x <;> simp

theorem bind_eq_error_iff {f : α → Except ε β} {e : ε} :
    x >>= f = .error e ↔ x = .error e ∨ ∃ a, x = .ok a ∧ f a = .error e := by
  cases x <;> simp [bind, Except.bind]

theorem map_eq_error_iff {f : α → β} {e : ε} : f <$> x = .error e ↔ x = .error e := by
  cases x <;> simp

end Except

/-! ## Lists -/

theorem exists_of_forall₂ {α β : Type} {p : α → β → Prop} {xs : List α} {ys : List β}
    (h : List.Forall₂ p xs ys) : ∀ y ∈ ys, ∃ x ∈ xs, p x y := by
  induction h with
  | nil => exact nofun
  | cons hxy _ ih =>
    rintro z (_ | ⟨_, hz⟩)
    · exact ⟨_, List.mem_cons_self, hxy⟩
    · obtain ⟨x, hx, hp⟩ := ih z hz
      exact ⟨x, List.mem_cons_of_mem _ hx, hp⟩

namespace Registry

/-- Whether nothing has a declared type at the position. -/
def untyped (v : Version) (position : Position) : Bool :=
  position == .property && !v.supports .typedProperties

theorem hint_of_select (hs : r.select position t = .ok shape) : r.hint position t =
    if untyped r.version position then .ok none else r.hintAs position shape t := by
  have hu : (position = .property ∧ (!r.supports .typedProperties) = true) ↔
      untyped r.version position = true := by
    simp [untyped, supports]
  rw [hint, selectDeclared, hs]
  simp only [hu]
  cases untyped r.version position <;> rfl

/-- A hint is that of the shape that the type is mapped as. -/
theorem hint_eq_some_iff : r.hint position t = .ok (some b) ↔
    untyped r.version position = false ∧
      ∃ shape, r.select position t = .ok shape ∧ r.hintAs position shape t = .ok (some b) := by
  cases hs : r.select position t with
  | error =>
    rw [hint, selectDeclared, hs]
    exact ⟨nofun, fun ⟨_, _, hs, _⟩ => nomatch hs⟩
  | ok shape =>
    rw [hint_of_select hs]
    cases untyped r.version position <;> simp

/-! ## Members -/

theorem hintsOf_cons :
    r.hintsOf position (t :: ts) = (t, r.hint position t) :: r.hintsOf position ts :=
  rfl

theorem hintsOf_eq_map : r.hintsOf position ts = ts.map fun t => (t, r.hint position t) := by
  induction ts with
  | nil => rfl
  | cons t ts ih => rw [hintsOf_cons, ih, List.map_cons]

theorem notNull_hintsOf :
    notNull (r.hintsOf position ts) = r.hintsOf position (ts.filter (· != null)) := by
  rw [notNull, hintsOf_eq_map, hintsOf_eq_map, List.filter_map]
  rfl

theorem length_filter_lt_iff :
    (ts.filter (· != null)).length < ts.length ↔ null ∈ ts := by
  rw [List.length_filter_lt_length_iff_exists]
  constructor
  · rintro ⟨t, ht, hn⟩
    obtain rfl : t = null := by simpa using hn
    exact ht
  · exact fun h => ⟨null, h, by simp⟩

/-- The hint of a union depends on its members other than null and on whether null is one. -/
theorem hintAs_union : r.hintAs position .union (.union ts) =
    match ts.filter (· != null) with
    | [] => .ok none
    | [t] =>
        if null ∈ ts then r.nullableHint t (r.hint position t) else r.hint position t
    | rest => r.unionHint (r.hintsOf position rest) (decide (null ∈ ts)) := by
  have hlen (us : List PhpType) : (r.hintsOf position us).length = us.length := by
    simp [hintsOf_eq_map]
  rw [hintAs_union_members, ofMembers]
  simp only [notNull_hintsOf, hlen, length_filter_lt_iff]
  match ts.filter (· != null) with
  | [] => rfl
  | [t] => rfl
  | _ :: _ :: _ => rfl

/-- The hint of a type for which a union has a place. -/
def Joins (r : Registry) (position : Position) (t : PhpType) (h : TypeHint) : Prop :=
  r.barredFromUnion t = false ∧ r.hint position t = .ok (some h)

theorem unionParts_eq_some_iff {found : List TypeHint} :
    r.unionParts (r.hintsOf position ts) = .ok (some found) ↔
      ∃ hints, List.Forall₂ (r.Joins position) ts hints ∧ hints.flatMap hintParts = found := by
  induction ts generalizing found with
  | nil =>
    constructor
    · rintro ⟨⟩
      exact ⟨[], .nil, rfl⟩
    · rintro ⟨_, ⟨⟩, rfl⟩
      rfl
  | cons t ts ih =>
    rw [hintsOf_cons, unionParts]
    constructor
    · intro hb
      split at hb
      · cases hb
      · next hbar =>
        obtain ⟨own, ho, hb⟩ := exists_of_bind_eq_ok hb
        cases own with
        | none => cases hb
        | some own =>
          obtain ⟨rest, hr, hb⟩ := exists_of_bind_eq_ok hb
          cases rest with
          | none => cases hb
          | some rest =>
            cases hb
            obtain ⟨hints, hj, rfl⟩ := ih.mp hr
            exact ⟨own :: hints, .cons ⟨Bool.eq_false_iff.mpr hbar, ho⟩ hj, rfl⟩
    · rintro ⟨hints, hj, rfl⟩
      cases hj with
      | cons h hj =>
        rw [h.1, h.2, ih.mpr ⟨_, hj, rfl⟩]
        rfl

theorem intersectionParts_eq_some_iff {found : List TypeHint} :
    intersectionParts (r.hintsOf position ts) = .ok (some found) ↔
      ∃ names, List.Forall₂ (fun t n => r.hint position t = .ok (some (.name n))) ts names ∧
        names.map .name = found := by
  induction ts generalizing found with
  | nil =>
    constructor
    · rintro ⟨⟩
      exact ⟨[], .nil, rfl⟩
    · rintro ⟨_, ⟨⟩, rfl⟩
      rfl
  | cons t ts ih =>
    rw [hintsOf_cons, intersectionParts]
    constructor
    · intro hb
      obtain ⟨own, ho, hb⟩ := exists_of_bind_eq_ok hb
      split at hb
      · obtain ⟨rest, hr, hb⟩ := exists_of_bind_eq_ok hb
        cases rest with
        | none => cases hb
        | some rest =>
          cases hb
          obtain ⟨names, hn, rfl⟩ := ih.mp hr
          exact ⟨_ :: names, .cons ho hn, rfl⟩
      · cases hb
    · rintro ⟨names, hn, rfl⟩
      cases hn with
      | cons ho hn =>
        rw [ho, ih.mpr ⟨_, hn, rfl⟩]
        rfl

/-- The hint for null, where there is one. -/
def nulls (withNull : Bool) : List TypeHint := if withNull then [.keyword "null"] else []

/-- Hints once each; one by itself is no union. -/
def united? (hints : List TypeHint) : Option TypeHint :=
  match hints.eraseDups with
  | [] => none
  | [h] => some h
  | hs => some (.union hs)

theorem united?_eq_some_iff {hints : List TypeHint} : united? hints = some b ↔
    hints.eraseDups = [b] ∨ 2 ≤ hints.eraseDups.length ∧ .union hints.eraseDups = b := by
  unfold united?
  match hints.eraseDups with
  | [] => simp
  | [h] => simp
  | _ :: _ :: _ => simp

theorem unionHint_eq {withNull : Bool} : r.unionHint (r.hintsOf position ts) withNull =
    if r.supports .unionTypes then do
      return (← r.unionParts (r.hintsOf position ts)).bind fun found =>
        united? (found ++ nulls withNull)
    else .ok none := by
  rw [unionHint]
  cases r.supports .unionTypes with
  | false => rfl
  | true =>
    simp only [Bool.not_true, Bool.false_eq_true, if_false, if_true]
    congr 1
    funext found
    cases found with
    | none => rfl
    | some found =>
      simp only [united?, nulls, Option.bind_some]
      generalize (found ++ if withNull = true then [TypeHint.keyword "null"] else []).eraseDups = hs
      rcases hs with _ | ⟨_, _ | _⟩ <;> rfl

theorem unionHint_eq_some_iff {withNull : Bool} :
    r.unionHint (r.hintsOf position ts) withNull = .ok (some b) ↔
      r.supports .unionTypes = true ∧ ∃ hints, List.Forall₂ (r.Joins position) ts hints ∧
        united? (hints.flatMap hintParts ++ nulls withNull) = some b := by
  rw [unionHint_eq]
  cases r.supports .unionTypes with
  | false => simp
  | true => simp [map_eq_ok_iff, Option.bind_eq_some_iff, unionParts_eq_some_iff]

/-- A type or null has the hint of the type if that is `mixed`, or that hint with null. -/
theorem nullableHint_eq_some_iff {own : HintResult} : r.nullableHint t own = .ok (some b) ↔
    t = mixed ∧ own = .ok (some b) ∨
    t ∉ [mixed, .simple .void, .simple .never, null] ∧ r.supports .nullableType = true ∧
      ∃ h, own = .ok (some h) ∧ r.hintOrNull h = some b := by
  unfold nullableHint
  split
  · simp [mixed, null]
  · exact ⟨nofun, by simp [mixed]⟩
  · exact ⟨nofun, by simp [mixed]⟩
  · exact ⟨nofun, by simp [mixed, null]⟩
  · next hm hv hn hnull =>
    have hm : t ≠ mixed := hm
    have hne : t ∉ [mixed, .simple .void, .simple .never, null] := by
      simp only [List.mem_cons, List.not_mem_nil, or_false, not_or]
      exact ⟨hm, hv, hn, hnull⟩
    simp only [hm, hne, false_and, false_or, not_false_eq_true, true_and]
    cases r.supports .nullableType with
    | false => exact ⟨nofun, nofun⟩
    | true => simp [map_eq_ok_iff, Option.bind_eq_some_iff]

theorem hintAs_union_eq_some_iff : r.hintAs position .union (.union ts) = .ok (some b) ↔
    (∃ t, ts.filter (· != null) = [t] ∧ null ∈ ts ∧
      r.nullableHint t (r.hint position t) = .ok (some b)) ∨
    (∃ t, ts.filter (· != null) = [t] ∧ null ∉ ts ∧ r.hint position t = .ok (some b)) ∨
    2 ≤ (ts.filter (· != null)).length ∧
      r.unionHint (r.hintsOf position (ts.filter (· != null))) (decide (null ∈ ts)) =
        .ok (some b) := by
  rw [hintAs_union]
  match ts.filter (· != null) with
  | [] => simp
  | [t] => by_cases hn : null ∈ ts <;> simp [hn]
  | _ :: _ :: _ => simp

theorem hintAs_nullable (hn : ∀ ts, t ≠ .union ts) : r.hintAs position .nullable (.nullable t) =
    r.nullableHint t (r.hint position t) := by
  rw [hintAs]
  · rfl
  · rintro ts rfl
    exact hn ts rfl

theorem hintAs_nullable_union : r.hintAs position .nullable (.nullable (.union ts)) =
    r.unionHint (r.hintsOf position (ts.filter (· != null))) true := by
  rw [hintAs, notNull_hintsOf]

theorem hintAs_intersection_eq_some_iff :
    r.hintAs position .intersection (.intersection ts) = .ok (some b) ↔
      r.supports .intersectionTypes = true ∧ ∃ names,
        List.Forall₂ (fun t n => r.hint position t = .ok (some (.name n))) ts names ∧
          .intersection (names.map .name) = b := by
  rw [hintAs]
  cases r.supports .intersectionTypes with
  | false =>
    constructor
    · intro h
      cases h
    · rintro ⟨h, -⟩
      cases h
  | true => simp [map_eq_ok_iff, intersectionParts_eq_some_iff]

theorem keywordIf_eq_some {allowed : Bool} {s : String} (h : keywordIf allowed s = .ok (some b)) :
    allowed = true ∧ b = .keyword s := by
  cases allowed with
  | false => cases h
  | true =>
    cases h
    exact ⟨rfl, rfl⟩

/-! ## Documentation forms -/

section Documentation

variable {item key : PhpType}

theorem docsOf_cons : r.docsOf position (t :: ts) =
    (do return (← r.doc position t) :: (← r.docsOf position ts)) := by
  rw [doc, bind_assoc]
  rfl

theorem docAs_iterable : r.docAs position .iterable (.iterable item) =
    if item = mixed then .ok (.name "iterable")
    else (fun d => .generic "iterable" [d]) <$> r.doc .anywhere item := by
  split
  · next he =>
    subst he
    rfl
  · next he =>
    rw [docAs, doc, map_eq_pure_bind, bind_assoc]
    exact he

theorem docAs_array : r.docAs position .array (.array key item) =
    if key = mixed ∧ item = mixed then .ok (.name "array")
    else if key = mixed ∨ key = .simple .int then .array <$> r.doc .anywhere item
    else do
      let keyForm ← r.doc .anywhere key
      let itemForm ← r.doc .anywhere item
      return .generic "array" [keyForm, itemForm] := by
  split
  · next h =>
    obtain ⟨rfl, rfl⟩ := h
    rfl
  · next h =>
    split
    · next hk =>
      rcases hk with rfl | rfl
      · rw [mixed, docAs, doc, map_eq_pure_bind, bind_assoc]
        exact fun he => h ⟨rfl, he⟩
      · rw [docAs, doc, map_eq_pure_bind, bind_assoc]
    · next hk =>
      rw [not_or] at hk
      rw [docAs, doc, doc, bind_assoc]
      · simp only [bind_assoc]
      · exact fun he _ => hk.1 he
      · exact hk.1
      · exact hk.2

theorem docAs_nullable : r.docAs position .nullable (.nullable t) =
    docOrNull <$> r.doc position t := by
  rw [docAs, doc, map_eq_pure_bind, bind_assoc]

theorem docAs_intersection : r.docAs position .intersection (.intersection ts) =
    .intersection <$> r.docsOf position ts := by
  rw [docAs]
  rfl

theorem docAs_generic {name : String} : r.docAs position .genericObject (.generic name ts) =
    .generic (DocType.classText name) <$> r.docsOf .anywhere ts := by
  rw [docAs]
  rfl

end Documentation

/-! ## The standard registry -/

theorem select_standard : (standard v).select position t = .ok t.shape := by
  have hs : ∀ s : Shape, (standard v).shapes.find? s.specializes = some s := by
    intro s
    cases s with
    | simple s => cases s <;> rfl
    | _ => rfl
  rw [select, hs]

theorem hint_standard : (standard v).hint position t =
    if untyped v position then .ok none else (standard v).hintAs position t.shape t :=
  hint_of_select select_standard

theorem hint_eq_some : (standard v).hint position t = .ok (some b) ↔
    untyped v position = false ∧ (standard v).hintAs position t.shape t = .ok (some b) := by
  rw [hint_standard]
  cases untyped v position <;> simp

/-! ## Hints by their types -/

/-- What holds of the hints of undivided types, and is kept where null is added to a hint and where
hints are united, holds of all hints. -/
theorem hint_induct {P : TypeHint → Prop} {ok : PhpType → Prop}
    (members : ∀ t, ok t → ∀ u ∈ t.members, ok u)
    (undivided : ∀ t b, ok t → t.Undivided →
      (∀ u ∈ t.members, ∀ h, (standard v).hint position u = .ok (some h) → P h) →
      (standard v).hint position t = .ok (some b) → P b)
    (orNull : ∀ h b, P h → (standard v).hintOrNull h = some b → P b)
    (united : ∀ ts withNull b, (∀ t ∈ ts, ∀ h, (standard v).hint position t = .ok (some h) → P h) →
      (standard v).unionHint ((standard v).hintsOf position ts) withNull = .ok (some b) → P b)
    (ht : ok t) (hb : (standard v).hint position t = .ok (some b)) : P b := by
  have nullable {t : PhpType} {b : TypeHint}
      (ih : ∀ h, (standard v).hint position t = .ok (some h) → P h)
      (hb : (standard v).nullableHint t ((standard v).hint position t) = .ok (some b)) : P b := by
    rcases nullableHint_eq_some_iff.mp hb with ⟨-, hb⟩ | ⟨-, -, h, hh, hb⟩
    · exact ih b hb
    · exact orNull h b (ih h hh) hb
  induction t using PhpType.members_induct generalizing b with
  | step t ih =>
    have ih : ∀ u ∈ t.members, ∀ h, (standard v).hint position u = .ok (some h) → P h :=
      fun u hu h => ih u hu (members t ht u hu)
    cases t with
    | union ts =>
      have ih : ∀ t ∈ ts.filter (· != null), ∀ h,
          (standard v).hint position t = .ok (some h) → P h :=
        fun t ht => ih t (List.mem_of_mem_filter ht)
      rcases hintAs_union_eq_some_iff.mp (hint_eq_some.mp hb).2 with
        ⟨t, hf, -, hb⟩ | ⟨t, hf, -, hb⟩ | ⟨-, hb⟩
      · exact nullable (ih t (hf ▸ List.mem_singleton_self t)) hb
      · exact ih t (hf ▸ List.mem_singleton_self t) b hb
      · exact united _ _ b ih hb
    | nullable t =>
      obtain ⟨-, hb⟩ := hint_eq_some.mp hb
      cases t with
      | union ts =>
        rw [PhpType.shape, hintAs_nullable_union] at hb
        exact united _ _ b (fun t ht => ih t (List.mem_of_mem_filter ht)) hb
      | _ =>
        rw [PhpType.shape, hintAs_nullable (by simp)] at hb
        exact nullable (ih _ List.mem_cons_self) hb
    | _ => exact undivided _ b ht trivial ih hb

end Registry

end PhpAtlas
