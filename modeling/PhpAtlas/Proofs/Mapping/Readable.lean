import PhpAtlas.Proofs.Hint.Spelling
import PhpAtlas.Proofs.Mapping.Compound
import PhpAtlas.Proofs.PhpType.Subterms

/-! # Hints that are read back

The hints that the standard registry makes are types that can be written: their
keywords are spelled as the grammar has them, and a class whose name consists of
identifiers is a fully qualified name. So the text of a hint is read as the hint.
-/

namespace PhpAtlas

variable {w rest : List Char} {words : List (List Char)} {pos : Nat} {s : String}

/-! ## Names of classes -/

/-- A name without backslashes. -/
def IsIdentifier (w : List Char) : Prop :=
  w.head?.any isNameStart = true ∧ w.all isNamePart = true

/-- Identifiers, with backslashes between them. -/
def IsClassName (s : String) : Prop := ∀ w ∈ s.toList.splitOn '\\', IsIdentifier w

instance : DecidablePred IsIdentifier := fun _ => inferInstanceAs (Decidable (_ ∧ _))

instance : DecidablePred IsClassName := fun _ => inferInstanceAs (Decidable (∀ _ ∈ _, _))

theorem IsIdentifier.exists_cons (hw : IsIdentifier w) :
    ∃ c cs, w = c :: cs ∧ isNameStart c = true ∧ ∀ d ∈ cs, isNamePart d = true := by
  obtain ⟨c, hc, hs⟩ := (Option.any_eq_true _ _).mp hw.1
  obtain ⟨cs, rfl⟩ := List.head?_eq_some_iff.mp hc
  exact ⟨c, cs, rfl, hs, fun d hd => List.all_eq_true.mp hw.2 d (List.mem_cons_of_mem _ hd)⟩

theorem cons_intercalate (hn : words ≠ []) :
    '\\' :: ['\\'].intercalate words = words.flatMap ('\\' :: ·) := by
  induction words with
  | nil => exact absurd rfl hn
  | cons w words ih =>
    cases words with
    | nil => simp
    | cons => simp [List.intercalate_cons_cons, ← ih]

/-- Behind a backslash a class name is identifiers, each behind a backslash. -/
theorem IsClassName.exists_words (hs : IsClassName s) :
    ∃ words : List (List Char), '\\' :: s.toList = words.flatMap ('\\' :: ·) ∧
      ∀ w ∈ words, IsIdentifier w := by
  refine ⟨_, ?_, hs⟩
  rw [← cons_intercalate (List.splitOn_ne_nil _ _), List.intercalate_splitOn]

theorem IsClassName.unrooted (hs : IsClassName s) : Unrooted s := by
  obtain ⟨words, he, hw⟩ := hs.exists_words
  cases words with
  | nil => cases he
  | cons w words =>
    obtain ⟨c, cs, rfl, hc, -⟩ := (hw w List.mem_cons_self).exists_cons
    obtain ⟨-, he⟩ := List.cons.inj he
    rw [Unrooted, he]
    rintro ⟨⟩
    cases hc

namespace Lexeme

theorem exists_nameEnd_append (pos : Nat) (hw : ∀ c ∈ w, isNamePart c = true) :
    ∃ p, nameEnd pos (w ++ rest) = nameEnd p rest := by
  induction w generalizing pos with
  | nil => exact ⟨pos, rfl⟩
  | cons c w ih =>
    obtain ⟨hc, hw⟩ := List.forall_mem_cons.mp hw
    rw [List.cons_append, nameEnd_part hc]
    exact ih _ hw

theorem rest_nameEnd_words (hw : ∀ w ∈ words, IsIdentifier w) :
    (nameEnd pos (words.flatMap ('\\' :: ·))).rest = [] := by
  induction words generalizing pos with
  | nil => rfl
  | cons w words ih =>
    obtain ⟨hw, hws⟩ := List.forall_mem_cons.mp hw
    obtain ⟨c, cs, rfl, hc, hcs⟩ := hw.exists_cons
    rw [List.flatMap_cons, List.cons_append, List.cons_append, nameEnd_backslash hc]
    obtain ⟨p, hp⟩ := exists_nameEnd_append (pos + 1 + c.utf8Size) hcs
    rw [hp]
    exact ih hws

end Lexeme

namespace HintSyntax

variable {h b : TypeHint} {hs : List TypeHint} {n : WrittenName}

theorem leaf_ofClass (hs : IsClassName s) : Leaf (.ofClass s) := by
  have htext : (TypeHint.ofClass s).text = "\\" ++ s := by
    rw [TypeHint.ofClass, dropLeadingBackslashes_of_unrooted hs.unrooted]
    rfl
  have hlist : (TypeHint.ofClass s).text.toList = '\\' :: s.toList := by
    rw [htext, String.toList_append]
    rfl
  refine ⟨⟨⟨_, _, hlist, .inl rfl⟩, ?_⟩, fun t hk ht => ?_⟩
  · obtain ⟨words, he, hw⟩ := hs.exists_words
    rw [hlist, he]
    exact Lexeme.rest_nameEnd_words hw
  · have hkind : t.kind = .fullyQualifiedName := by rw [hk, hlist, Lexeme.nameKind]; rfl
    rw [TypeHint.ofClass, dropLeadingBackslashes_of_unrooted hs.unrooted]
    exact .fullyQualified hkind (ht.trans htext)

/-! ## Parts of hints -/

theorem operand_keyword (hs : s ∈ typeKeywords) : Operand (.keyword s) := .leaf (leaf_keyword hs)

theorem Operand.hintParts (ho : Operand h) : Registry.hintParts h = [h] := by
  cases ho with
  | leaf hl =>
    obtain ⟨t, ht⟩ := hl.exists_token
    cases ht <;> rfl
  | intersection => rfl

theorem Written.operand_of_mem_hintParts (hw : Written b) (hh : h ∈ Registry.hintParts b) :
    Operand h := by
  cases hw with
  | nullable hl =>
    simp only [Registry.hintParts, List.mem_cons, List.not_mem_nil, or_false] at hh
    rcases hh with rfl | rfl
    · exact .leaf hl
    · exact operand_keyword (by decide)
  | operand ho =>
    rw [ho.hintParts] at hh
    exact List.mem_singleton.mp hh ▸ ho
  | union ho => exact ho h hh

theorem Written.leaf_of_name (hw : Written (.name n)) : Leaf (.name n) := by
  cases hw with
  | operand ho =>
    cases ho with
    | leaf hl => exact hl

/-! ## What is put together -/

theorem written_union (ho : ∀ h ∈ hs, Operand h) (hlen : 2 ≤ hs.length) : Written (.union hs) := by
  match hs with
  | _ :: _ :: _ => exact .union ho

theorem written_intersection {names : List WrittenName} (hl : ∀ n ∈ names, Leaf (.name n))
    (hlen : 2 ≤ names.length) : Written (.intersection (names.map .name)) := by
  match names with
  | _ :: _ :: _ => exact .operand (.intersection (by simpa using hl))

theorem written_of_united? (ho : ∀ h ∈ hs, Operand h) (hb : Registry.united? hs = some b) :
    Written b := by
  have ho : ∀ h ∈ hs.eraseDups, Operand h := fun h hh => ho h (List.mem_eraseDups.mp hh)
  rcases Registry.united?_eq_some_iff.mp hb with he | ⟨hlen, rfl⟩
  · exact .operand (ho b (he ▸ List.mem_singleton_self b))
  · exact written_union ho hlen

theorem Written.hintOrNull {r : Registry} (hw : Written h) (hb : r.hintOrNull h = some b) :
    Written b := by
  have hnull : Operand (.keyword "null") := operand_keyword (by decide)
  cases hw with
  | nullable hl =>
    cases hb
    exact .nullable hl
  | operand ho =>
    cases ho with
    | leaf hl =>
      obtain ⟨t, ht⟩ := hl.exists_token
      cases ht <;> (cases hb; exact .nullable hl)
    | intersection hl =>
      rw [Registry.hintOrNull] at hb
      split at hb
      · cases hb
        exact written_union (by simpa using ⟨.intersection hl, hnull⟩) (Nat.le_refl 2)
      · cases hb
  | union ho =>
    cases hb
    exact written_union (List.forall_mem_append.mpr ⟨ho, by simpa using hnull⟩) (by simp)

end HintSyntax

namespace Registry

open HintSyntax PhpType

variable {r : Registry} {v : Version} {position : Position} {t : PhpType} {ts : List PhpType}
variable {b : TypeHint}

theorem written_of_unionHint {withNull : Bool}
    (hw : ∀ t ∈ ts, ∀ h, r.hint position t = .ok (some h) → Written h)
    (hb : r.unionHint (r.hintsOf position ts) withNull = .ok (some b)) : Written b := by
  obtain ⟨-, hints, hj, hb⟩ := unionHint_eq_some_iff.mp hb
  refine written_of_united? (fun h hh => ?_) hb
  rcases List.mem_append.mp hh with hh | hh
  · obtain ⟨own, ho, hh⟩ := List.mem_flatMap.mp hh
    obtain ⟨t, ht, -, ho⟩ := exists_of_forall₂ hj own ho
    exact (hw t ht own ho).operand_of_mem_hintParts hh
  · cases withNull with
    | false => cases hh
    | true => exact List.mem_singleton.mp hh ▸ operand_keyword (by decide)

theorem text_mem_typeKeywords {s : SimpleType} (ha : r.allowsSimple position s = true) :
    s.text ∈ typeKeywords := by
  cases s with
  | resource => cases ha
  | _ => decide

/-- The hint of a type that is no union is written if the hints of its members are. -/
theorem written_of_undivided (hn : ∀ name ∈ t.className?, IsClassName name)
    (hi : ∀ ts, t = .intersection ts → 2 ≤ ts.length) (hu : t.Undivided)
    (ih : ∀ u ∈ t.members, ∀ h, (standard v).hint position u = .ok (some h) → Written h)
    (hb : (standard v).hint position t = .ok (some b)) : Written b := by
  obtain ⟨-, hb⟩ := hint_eq_some.mp hb
  cases t with
  | simple s =>
    obtain ⟨ha, rfl⟩ := keywordIf_eq_some hb
    exact .operand (operand_keyword (text_mem_typeKeywords ha))
  | classString | iterable =>
    obtain ⟨-, rfl⟩ := keywordIf_eq_some hb
    exact .operand (operand_keyword (by decide))
  | array =>
    cases hb
    exact .operand (operand_keyword (by decide))
  | object form name =>
    cases form with
    | named =>
      cases hb
      exact .operand (.leaf (leaf_ofClass (hn name rfl)))
    | self | parent =>
      cases hb
      exact .operand (operand_keyword (by decide))
    | static =>
      obtain ⟨-, rfl⟩ := keywordIf_eq_some hb
      exact .operand (operand_keyword (by decide))
  | generic name =>
    cases hb
    exact .operand (.leaf (leaf_ofClass (hn name rfl)))
  | intersection ts =>
    obtain ⟨-, names, hj, rfl⟩ := hintAs_intersection_eq_some_iff.mp hb
    refine written_intersection (fun n hn => ?_) (hj.length_eq ▸ hi ts rfl)
    obtain ⟨t, ht, hh⟩ := exists_of_forall₂ hj n hn
    exact (ih t ht _ hh).leaf_of_name
  | union | nullable => exact hu.elim

/-- All that a hint is made of can be written. -/
theorem written_of_hint (hn : ∀ s ∈ t.subterms, ∀ name ∈ s.className?, IsClassName name)
    (hi : ∀ ts, .intersection ts ∈ t.subterms → 2 ≤ ts.length)
    (hb : (standard v).hint position t = .ok (some b)) : Written b := by
  let ok (t : PhpType) : Prop := (∀ s ∈ t.subterms, ∀ name ∈ s.className?, IsClassName name) ∧
    ∀ ts, .intersection ts ∈ t.subterms → 2 ≤ ts.length
  have hok : ok t := ⟨hn, hi⟩
  refine hint_induct ?_ ?_ ?_ ?_ hok hb
  · intro t ⟨hn, hi⟩ u hu
    exact ⟨fun s hs => hn s (mem_subterms_of_mem_members hs hu),
      fun ts hts => hi ts (mem_subterms_of_mem_members hts hu)⟩
  · intro t b ⟨hn, hi⟩ hu ih hb
    have hself := mem_subterms_self t
    exact written_of_undivided (hn t hself) (fun ts ht => hi ts (ht ▸ hself)) hu ih hb
  · exact fun h b hh hb => hh.hintOrNull hb
  · exact fun ts withNull b ih hb => written_of_unionHint ih hb

/-- The text of the hint of a type is read as the hint, if all classes in the type have names of
classes and all intersections in it, as in a canonical type, at least two members. -/
theorem parse_text_of_hint (hn : ∀ s ∈ t.subterms, ∀ name ∈ s.className?, IsClassName name)
    (hi : ∀ ts, .intersection ts ∈ t.subterms → 2 ≤ ts.length)
    (hb : (standard v).hint position t = .ok (some b)) :
    TypeHint.parse b.text.toList = .ok b :=
  TypeHint.parse_text_of_written (written_of_hint hn hi hb)

theorem parse_text_of_hint_group :
    let t : PhpType := .nullable (.intersection [.generic "App\\Été" [.simple .int],
      .object .named "_B2"])
    let b : TypeHint := .union [.intersection [.ofClass "App\\Été", .ofClass "_B2"],
      .keyword "null"]
    t.Canonical ∧ (standard (.of 8 2)).hint .property t = .ok (some b) ∧
      b.text = "(\\App\\Été&\\_B2)|null" ∧ TypeHint.parse b.text.toList = .ok b := by
  intro t b
  have hc : t.Canonical := by decide +kernel
  have hn : ∀ s ∈ t.subterms, ∀ name ∈ s.className?, IsClassName name := by decide +kernel
  have hb : (standard (.of 8 2)).hint .property t = .ok (some b) := by decide +kernel
  exact ⟨hc, hb, by decide +kernel, parse_text_of_hint hn (fun _ => hc.two_le_length) hb⟩

end Registry

end PhpAtlas
