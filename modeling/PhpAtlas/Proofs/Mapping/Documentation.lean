import PhpAtlas.Proofs.Hint.Syntax
import PhpAtlas.Proofs.Mapping.Refusal

/-! # Documentation and hints

Where the standard registry gives a type a hint, its documentation form says the
same up to the arguments of types: both have the same members. As `mixed` covers
null, null does not count beside it.
-/

namespace PhpAtlas

/-! ## Members of hints -/

namespace TypeHint

/-- The types without null, if one of them is `mixed`. -/
def absorbNull (hs : List TypeHint) : List TypeHint :=
  if keyword "mixed" ∈ hs then hs.filter (· != keyword "null") else hs

/-- A type with the given members: a lone one is the type by itself. -/
def unite (hs : List TypeHint) : TypeHint :=
  match hs.eraseDups with
  | [h] => h
  | hs => union hs

mutual

/-- The types to one of which a value belongs. Unions are flattened, a nullable type is the type
and null, and an intersection is one type, in which unions are flattened too. -/
def alternatives : TypeHint → List TypeHint
  | keyword s => [keyword s]
  | name n => [name n]
  | nullable h => alternatives h ++ [keyword "null"]
  | union hs => alternativesOf hs
  | intersection hs => [intersection (reunited hs)]

def alternativesOf : List TypeHint → List TypeHint
  | [] => []
  | h :: hs => alternatives h ++ alternativesOf hs

/-- Each type put together again from its members. -/
def reunited : List TypeHint → List TypeHint
  | [] => []
  | h :: hs => unite (absorbNull (alternatives h)) :: reunited hs

end

def members (h : TypeHint) : List TypeHint := absorbNull h.alternatives

end TypeHint

namespace DocType

/-- The type that a name stands for, where the name may have had arguments. -/
def namedHint (s : String) : TypeHint :=
  if s = "class-string" then .keyword "string"
  else if Unrooted s then .keyword s
  else .name (.ofText s)

mutual

/-- The type without the arguments of types. -/
def erased : DocType → TypeHint
  | name s => namedHint s
  | array _ => .keyword "array"
  | generic s _ => namedHint s
  | nullable t => .nullable (erased t)
  | union ts => .union (erasedOf ts)
  | intersection ts => .intersection (erasedOf ts)

def erasedOf : List DocType → List TypeHint
  | [] => []
  | t :: ts => erased t :: erasedOf ts

end

theorem erasedOf_eq_map (ts : List DocType) : erasedOf ts = ts.map erased := by
  induction ts with
  | nil => rfl
  | cons t ts ih => rw [erasedOf, ih, List.map_cons]

theorem namedHint_classText (s : String) : namedHint (classText s) = .ofClass s := by
  have hlist : (classText s).toList = '\\' :: (dropLeadingBackslashes s).toList := by
    rw [classText, String.toList_append]
    rfl
  have hclass : classText s ≠ "class-string" := by
    intro he
    rw [he] at hlist
    cases hlist
  have hroot : ¬Unrooted (classText s) := by simp [Unrooted, hlist]
  rw [namedHint, if_neg hclass, if_neg hroot, WrittenName.ofText_eq, hlist]
  simp [TypeHint.ofClass]

end DocType

namespace TypeHint

variable {h m : TypeHint} {hs ks : List TypeHint}

theorem alternativesOf_eq_flatMap (hs : List TypeHint) :
    alternativesOf hs = hs.flatMap alternatives := by
  induction hs with
  | nil => rfl
  | cons h hs ih => rw [alternativesOf, ih, List.flatMap_cons]

theorem flatMap_hintParts (h : TypeHint) :
    (Registry.hintParts h).flatMap alternatives = h.alternatives := by
  cases h with
  | union hs => exact (alternativesOf_eq_flatMap hs).symm
  | _ => simp [Registry.hintParts, alternatives]

theorem unite_eq_of_mem_iff (hm : ∀ k, k ∈ hs ↔ k = h) : unite hs = h := by
  have hd := nodup_eraseDups hs
  have hm : ∀ k, k ∈ hs.eraseDups ↔ k = h := fun k => List.mem_eraseDups.trans (hm k)
  have he : hs.eraseDups = [h] := by
    apply List.perm_singleton.mp
    rw [List.perm_ext_iff_of_nodup hd (List.nodup_singleton h)]
    simpa using hm
  rw [unite, he]

/-- The type is one of the types, or it is null and `mixed` is one of them. -/
def Covers (hs : List TypeHint) (m : TypeHint) : Prop :=
  m ∈ hs ∨ m = keyword "null" ∧ keyword "mixed" ∈ hs

theorem covers_append : Covers (hs ++ ks) m ↔ Covers hs m ∨ Covers ks m := by
  simp only [Covers, List.mem_append]
  tauto

theorem covers_flatMap {α : Type} {xs : List α} {f : α → List TypeHint} :
    Covers (xs.flatMap f) m ↔ ∃ x ∈ xs, Covers (f x) m := by
  simp only [Covers, List.mem_flatMap]
  grind

@[simp] theorem covers_null : Covers (keyword "null").alternatives m ↔ m = keyword "null" := by
  simp [Covers, alternatives]

@[simp] theorem covers_name {n : WrittenName} : Covers (name n).alternatives m ↔ m = name n := by
  simp [Covers, alternatives]

@[simp] theorem covers_nullable :
    Covers (nullable h).alternatives m ↔ Covers h.alternatives m ∨ m = keyword "null" := by
  rw [← covers_null, alternatives, alternatives, covers_append]

@[simp] theorem covers_union :
    Covers (union hs).alternatives m ↔ ∃ h ∈ hs, Covers h.alternatives m := by
  rw [← covers_flatMap, alternatives, alternativesOf_eq_flatMap]

/-- What stands among the types is what they cover, but null does not stand beside `mixed`. -/
theorem mem_absorbNull :
    m ∈ absorbNull hs ↔ Covers hs m ∧ (m = keyword "null" → ¬Covers hs (keyword "mixed")) := by
  have hmixed : Covers hs (keyword "mixed") ↔ keyword "mixed" ∈ hs := by simp [Covers]
  rw [hmixed, absorbNull, Covers]
  split
  · next hm =>
    simp only [hm, List.mem_filter, bne_iff_ne, and_true, not_true_eq_false, imp_false]
    tauto
  · next hm => simp [hm]

/-- A type that covers one name and nothing else is put together again as the name. -/
theorem unite_absorbNull {n : WrittenName} (hc : ∀ m, Covers hs m ↔ m = name n) :
    unite (absorbNull hs) = name n := by
  apply unite_eq_of_mem_iff
  simp [mem_absorbNull, hc]

theorem reunited_names (names : List WrittenName) :
    reunited (names.map .name) = names.map .name := by
  induction names with
  | nil => rfl
  | cons n names ih => rw [List.map_cons, reunited, unite_absorbNull fun _ => covers_name, ih]

end TypeHint

namespace Registry

open PhpType (mixed null)

variable {v : Version} {position : Position} {t item key : PhpType} {ts : List PhpType}
variable {d : DocType} {ds : List DocType} {b m : TypeHint}

/-! ## Documentation forms -/

theorem doc_standard : (standard v).doc position t = (standard v).docAs position t.shape t := by
  rw [doc, select_standard]
  rfl

theorem docsOf_eq_ok_iff : (standard v).docsOf position ts = .ok ds ↔
    List.Forall₂ (fun t d => (standard v).doc position t = .ok d) ts ds := by
  induction ts generalizing ds with
  | nil =>
    constructor
    · rintro ⟨⟩
      exact .nil
    · rintro ⟨⟩
      rfl
  | cons t ts ih =>
    rw [docsOf_cons]
    constructor
    · intro h
      obtain ⟨d, hd, h⟩ := exists_of_bind_eq_ok h
      obtain ⟨ds, hds, h⟩ := exists_of_bind_eq_ok h
      cases h
      exact .cons hd (ih.mp hds)
    · rintro (_ | ⟨hd, hds⟩)
      rw [hd, ih.mpr hds]
      rfl

theorem doc_simple {s : SimpleType} : (standard v).doc position (.simple s) = .ok (.name s.text) := by
  rw [doc_standard]
  rfl

/-- The standard registry has a documentation form for every type. -/
theorem exists_doc (v : Version) (position : Position) (t : PhpType) :
    ∃ d, (standard v).doc position t = .ok d :=
  exists_ok_of_accepts (fun s _ => accepts_standard v s) fun _ => blames_doc

theorem exists_docs (v : Version) (position : Position) (ts : List PhpType) :
    ∃ ds, (standard v).docsOf position ts = .ok ds := by
  cases hds : (standard v).docsOf position ts with
  | ok ds => exact ⟨ds, rfl⟩
  | error e =>
    obtain ⟨t, -, hd⟩ := exists_of_docsOf_eq_error hds
    obtain ⟨d, hok⟩ := exists_doc v position t
    cases hok.symm.trans hd

/-! ## What the forms say -/

open TypeHint (Covers covers_flatMap covers_null covers_name covers_nullable covers_union)

/-- The documentation form of the type says that a value may be of the other type. -/
def Documents (v : Version) (position : Position) (t : PhpType) (m : TypeHint) : Prop :=
  ∃ d, (standard v).doc position t = .ok d ∧ Covers d.erased.alternatives m

theorem documents_iff (hd : (standard v).doc position t = .ok d) :
    Documents v position t m ↔ Covers d.erased.alternatives m := by
  simp [Documents, hd]

theorem namedHint_text (s : SimpleType) : DocType.namedHint s.text = .keyword s.text := by
  cases s <;> decide

theorem erased_of_iterable (hd : (standard v).doc position (.iterable item) = .ok d) :
    d.erased = .keyword "iterable" := by
  have he : DocType.namedHint "iterable" = .keyword "iterable" := by decide
  rw [doc_standard, PhpType.shape, docAs_iterable] at hd
  split at hd
  · cases hd
    exact he
  · obtain ⟨_, -, rfl⟩ := map_eq_ok_iff.mp hd
    exact he

theorem erased_of_array (hd : (standard v).doc position (.array key item) = .ok d) :
    d.erased = .keyword "array" := by
  have he : DocType.namedHint "array" = .keyword "array" := by decide
  rw [doc_standard, PhpType.shape, docAs_array] at hd
  split at hd
  · cases hd
    exact he
  · split at hd
    · obtain ⟨_, -, rfl⟩ := map_eq_ok_iff.mp hd
      rfl
    · obtain ⟨_, -, hd⟩ := exists_of_bind_eq_ok hd
      obtain ⟨_, -, hd⟩ := exists_of_bind_eq_ok hd
      cases hd
      exact he

theorem documents_null : Documents v position null m ↔ m = .keyword "null" := by
  have hd : (standard v).doc position null = .ok (.name "null") := rfl
  rw [documents_iff hd, ← covers_null]
  rfl

theorem covers_docOrNull : Covers (docOrNull d).erased.alternatives m ↔
    Covers d.erased.alternatives m ∨ m = .keyword "null" := by
  have hnull : DocType.namedHint "null" = .keyword "null" := by decide
  cases d with
  | union ts =>
    simp [docOrNull, DocType.erased, DocType.erasedOf_eq_map, hnull, or_and_right, exists_or]
  | intersection ts => simp [docOrNull, DocType.erased, DocType.erasedOf, hnull]
  | _ => exact covers_nullable

theorem documents_nullable : Documents v position (.nullable t) m ↔
    Documents v position t m ∨ m = .keyword "null" := by
  obtain ⟨d, hd⟩ := exists_doc v position t
  have hn : (standard v).doc position (.nullable t) = .ok (docOrNull d) := by
    rw [doc_standard, PhpType.shape, docAs_nullable, hd]
    rfl
  rw [documents_iff hn, covers_docOrNull, documents_iff hd]

theorem documents_union : Documents v position (.union ts) m ↔
    ∃ t ∈ ts, Documents v position t m := by
  obtain ⟨ds, hds⟩ := exists_docs v position ts
  have hu : (standard v).doc position (.union ts) = .ok (.union ds.eraseDups) := by
    rw [doc_standard, PhpType.shape, docAs_union, hds]
    rfl
  rw [documents_iff hu, DocType.erased, covers_union, DocType.erasedOf_eq_map]
  simp only [List.mem_map, List.mem_eraseDups, exists_exists_and_eq_and]
  have hds := docsOf_eq_ok_iff.mp hds
  constructor
  · rintro ⟨d, hd, hm⟩
    obtain ⟨t, ht, hd⟩ := exists_of_forall₂ hds d hd
    exact ⟨t, ht, d, hd, hm⟩
  · rintro ⟨t, ht, d, hd, hm⟩
    obtain ⟨d', hd', hdoc⟩ := exists_of_forall₂ hds.flip t ht
    cases hd.symm.trans hdoc
    exact ⟨d, hd', hm⟩

/-- To a union null adds itself and nothing else. -/
theorem documents_union_iff : Documents v position (.union ts) m ↔
    (∃ t ∈ ts.filter (· != null), Documents v position t m) ∨
      null ∈ ts ∧ m = .keyword "null" := by
  have hnull : Documents v position null m ↔ m = .keyword "null" := documents_null
  rw [documents_union, ← hnull]
  simp only [List.mem_filter, bne_iff_ne]
  grind

/-! ## What hints say -/

theorem covers_hintOrNull {r : Registry} {h : TypeHint} (hb : r.hintOrNull h = some b) :
    Covers b.alternatives m ↔ Covers h.alternatives m ∨ m = .keyword "null" := by
  cases h with
  | keyword | name =>
    cases hb
    exact covers_nullable
  | nullable =>
    cases hb
    simp
  | union hs =>
    cases hb
    simp [or_and_right, exists_or]
  | intersection hs =>
    rw [hintOrNull] at hb
    split at hb
    · cases hb
      simp
    · cases hb

theorem covers_united? {hs : List TypeHint} (hb : united? hs = some b) :
    Covers b.alternatives m ↔ ∃ h ∈ hs, Covers h.alternatives m := by
  have hmem : (∃ h ∈ hs, Covers h.alternatives m) ↔
      ∃ h ∈ hs.eraseDups, Covers h.alternatives m := by
    simp only [List.mem_eraseDups]
  rw [hmem]
  rcases united?_eq_some_iff.mp hb with he | ⟨-, rfl⟩
  · simp [he]
  · exact covers_union

/-- Each hint of the type says the same as its documentation form. -/
def Agrees (v : Version) (position : Position) (t : PhpType) : Prop :=
  ∀ b, (standard v).hint position t = .ok (some b) →
    ∀ m, Covers b.alternatives m ↔ Documents v position t m

theorem covers_nullableHint (ht : Agrees v position t)
    (hb : (standard v).nullableHint t ((standard v).hint position t) = .ok (some b)) :
    Covers b.alternatives m ↔ Documents v position t m ∨ m = .keyword "null" := by
  rcases nullableHint_eq_some_iff.mp hb with ⟨rfl, hb⟩ | ⟨-, -, h, hh, hb⟩
  · rw [← ht b hb]
    obtain ⟨-, hb⟩ := hint_eq_some.mp hb
    obtain ⟨-, rfl⟩ := keywordIf_eq_some hb
    -- null is already covered
    refine ⟨.inl, ?_⟩
    rintro (hm | rfl)
    · exact hm
    · exact .inr ⟨rfl, List.mem_singleton_self _⟩
  · rw [covers_hintOrNull hb, ht h hh]

theorem exists_covers_iff {hints : List TypeHint} (ht : ∀ t ∈ ts, Agrees v position t)
    (hj : List.Forall₂ ((standard v).Joins position) ts hints) :
    (∃ h ∈ hints, Covers h.alternatives m) ↔ ∃ t ∈ ts, Documents v position t m := by
  induction hj with
  | nil => simp
  | cons hj _ ih =>
    obtain ⟨ht, hts⟩ := List.forall_mem_cons.mp ht
    simp only [List.mem_cons, exists_eq_or_imp, ht _ hj.2, ih hts]

theorem covers_unionHint {withNull : Bool} (ht : ∀ t ∈ ts, Agrees v position t)
    (hb : (standard v).unionHint ((standard v).hintsOf position ts) withNull = .ok (some b)) :
    Covers b.alternatives m ↔
      (∃ t ∈ ts, Documents v position t m) ∨ withNull = true ∧ m = .keyword "null" := by
  obtain ⟨-, hints, hj, hb⟩ := unionHint_eq_some_iff.mp hb
  have hparts : (∃ h ∈ hints.flatMap hintParts, Covers h.alternatives m) ↔
      ∃ h ∈ hints, Covers h.alternatives m := by
    simp only [← covers_flatMap, List.flatMap_assoc, TypeHint.flatMap_hintParts]
  have hnulls : (∃ h ∈ nulls withNull, Covers h.alternatives m) ↔
      withNull = true ∧ m = .keyword "null" := by
    cases withNull <;> simp [nulls]
  rw [covers_united? hb, ← exists_covers_iff ht hj, ← hparts, ← hnulls]
  simp only [List.mem_append, or_and_right, exists_or]

/-- The parts of an intersection that is documented are the names that are declared. -/
theorem reunited_erasedOf {names : List WrittenName} (ht : ∀ t ∈ ts, Agrees v position t)
    (hd : List.Forall₂ (fun t d => (standard v).doc position t = .ok d) ts ds)
    (hn : List.Forall₂ (fun t n => (standard v).hint position t = .ok (some (.name n))) ts names) :
    TypeHint.reunited (DocType.erasedOf ds) = names.map .name := by
  induction hd generalizing names with
  | nil =>
    cases hn
    rfl
  | @cons t d ts ds hd _ ih =>
    cases hn with
    | @cons _ n _ names hn hns =>
      obtain ⟨ht, hts⟩ := List.forall_mem_cons.mp ht
      have hc : ∀ m, Covers d.erased.alternatives m ↔ m = .name n := by
        intro m
        rw [← documents_iff hd, ← ht _ hn, covers_name]
      rw [DocType.erasedOf, TypeHint.reunited, TypeHint.unite_absorbNull hc, ih hts hns,
        List.map_cons]

theorem agrees_of_erased (he : ∀ d b, (standard v).doc position t = .ok d →
    (standard v).hint position t = .ok (some b) → d.erased = b) : Agrees v position t := by
  intro b hb m
  obtain ⟨d, hd⟩ := exists_doc v position t
  rw [documents_iff hd, he d b hd hb]

theorem agrees_intersection (ht : ∀ t ∈ ts, Agrees v position t) :
    Agrees v position (.intersection ts) := by
  intro b hb m
  obtain ⟨-, hb⟩ := hint_eq_some.mp hb
  obtain ⟨-, names, hn, rfl⟩ := hintAs_intersection_eq_some_iff.mp hb
  obtain ⟨ds, hds⟩ := exists_docs v position ts
  have hd : (standard v).doc position (.intersection ts) = .ok (.intersection ds) := by
    rw [doc_standard, PhpType.shape, docAs_intersection, hds]
    rfl
  have hr := reunited_erasedOf ht (docsOf_eq_ok_iff.mp hds) hn
  rw [documents_iff hd, DocType.erased, TypeHint.alternatives, TypeHint.alternatives, hr,
    TypeHint.reunited_names]

theorem agrees_union (ht : ∀ t ∈ ts, Agrees v position t) : Agrees v position (.union ts) := by
  have ht : ∀ t ∈ ts.filter (· != null), Agrees v position t :=
    fun t h => ht t (List.mem_of_mem_filter h)
  intro b hb m
  obtain ⟨-, hb⟩ := hint_eq_some.mp hb
  rw [documents_union_iff]
  rcases hintAs_union_eq_some_iff.mp hb with ⟨t, hf, hn, hb⟩ | ⟨t, hf, hn, hb⟩ | ⟨-, hb⟩
  · rw [covers_nullableHint (ht t (hf ▸ List.mem_singleton_self t)) hb, hf]
    simp [hn]
  · rw [ht t (hf ▸ List.mem_singleton_self t) b hb, hf]
    simp [hn]
  · rw [covers_unionHint ht hb, decide_eq_true_eq]

theorem agrees_nullable (ht : ∀ u ∈ (PhpType.nullable t).members, Agrees v position u) :
    Agrees v position (.nullable t) := by
  intro b hb m
  obtain ⟨-, hb⟩ := hint_eq_some.mp hb
  rw [documents_nullable]
  cases t with
  | union ts =>
    rw [PhpType.shape, hintAs_nullable_union] at hb
    have ht : ∀ t ∈ ts.filter (· != null), Agrees v position t :=
      fun t h => ht t (List.mem_of_mem_filter h)
    rw [covers_unionHint ht hb, documents_union_iff, or_assoc, or_iff_right_of_imp And.right]
    simp only [true_and]
  | _ =>
    rw [PhpType.shape, hintAs_nullable (by simp)] at hb
    exact covers_nullableHint (ht _ List.mem_cons_self) hb

theorem agrees (t : PhpType) : Agrees v position t := by
  induction t using PhpType.members_induct with
  | step t ih =>
    cases t with
    | union ts => exact agrees_union ih
    | nullable t => exact agrees_nullable ih
    | intersection ts => exact agrees_intersection ih
    | simple s =>
      refine agrees_of_erased fun d b hd hb => ?_
      obtain ⟨-, rfl⟩ := keywordIf_eq_some (hint_eq_some.mp hb).2
      rw [doc_simple] at hd
      cases hd
      exact namedHint_text s
    | classString bound =>
      refine agrees_of_erased fun d b hd hb => ?_
      obtain ⟨-, rfl⟩ := keywordIf_eq_some (hint_eq_some.mp hb).2
      cases bound <;> (cases hd; rfl)
    | iterable =>
      refine agrees_of_erased fun d b hd hb => ?_
      obtain ⟨-, rfl⟩ := keywordIf_eq_some (hint_eq_some.mp hb).2
      exact erased_of_iterable hd
    | array =>
      refine agrees_of_erased fun d b hd hb => ?_
      obtain ⟨-, ⟨⟩⟩ := hint_eq_some.mp hb
      exact erased_of_array hd
    | object form name =>
      refine agrees_of_erased fun d b hd hb => ?_
      obtain ⟨-, hb⟩ := hint_eq_some.mp hb
      cases form with
      | named =>
        cases hb
        cases hd
        exact DocType.namedHint_classText name
      | self | parent =>
        cases hb
        cases hd
        decide
      | static =>
        obtain ⟨-, rfl⟩ := keywordIf_eq_some hb
        cases hd
        decide
    | generic name args =>
      refine agrees_of_erased fun d b hd hb => ?_
      obtain ⟨-, ⟨⟩⟩ := hint_eq_some.mp hb
      rw [doc_standard, PhpType.shape, docAs_generic] at hd
      obtain ⟨ds, -, rfl⟩ := map_eq_ok_iff.mp hd
      exact DocType.namedHint_classText name

/-- A type with a hint has a documentation form with the same members. -/
theorem mem_members_doc_iff (hb : (standard v).hint position t = .ok (some b)) :
    ∃ d, (standard v).doc position t = .ok d ∧ ∀ m, m ∈ d.erased.members ↔ m ∈ b.members := by
  obtain ⟨d, hd⟩ := exists_doc v position t
  refine ⟨d, hd, fun m => ?_⟩
  have hc : ∀ m, Covers d.erased.alternatives m ↔ Covers b.alternatives m :=
    fun m => (documents_iff hd).symm.trans (agrees t b hb m).symm
  rw [TypeHint.members, TypeHint.members, TypeHint.mem_absorbNull, TypeHint.mem_absorbNull, hc, hc]

theorem mem_members_doc_iff_group :
    let t : PhpType := .union [null, .array (.simple .int) (.simple .string),
      .intersection [.generic "A" [.simple .int], .object .named "\\B"],
      .nullable (.classString (some "C"))]
    let b : TypeHint := .union [.keyword "array", .intersection [.ofClass "A", .ofClass "B"],
      .keyword "string", .keyword "null"]
    (standard (.of 8 2)).hint .param t = .ok (some b) ∧
      ∃ d, (standard (.of 8 2)).doc .param t = .ok d ∧
        d.text = "null|string[]|(\\A<int>&\\B)|?class-string<\\C>" ∧
        ∀ m, m ∈ d.erased.members ↔ m ∈ b.members := by
  intro t b
  have hb : (standard (.of 8 2)).hint .param t = .ok (some b) := by decide +kernel
  obtain ⟨d, hd, hm⟩ := mem_members_doc_iff hb
  refine ⟨hb, d, hd, ?_, hm⟩
  cases hd
  decide +kernel

end Registry

end PhpAtlas
