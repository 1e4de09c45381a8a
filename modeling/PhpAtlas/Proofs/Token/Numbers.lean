import Mathlib.Data.Bool.AllAny
import PhpAtlas.Proofs.Token.Words

/-! # Numbers

The numbers of the language are given by their digits, points and exponents. The
scanner takes letters, digits, underscores and points as they come; where that is
the number and nothing else is decided here for every number.
-/

namespace PhpAtlas

open String (utf8Len)

variable {c : Char} {cs w rest digits : List Char} {pos : Nat}

/-! ## The numbers of the language -/

namespace Numeral

def decimalDigits : List Char := "0123456789".toList

def hexDigits : List Char := "0123456789abcdefABCDEF".toList

def octalDigits : List Char := "01234567".toList

def binaryDigits : List Char := "01".toList

/-- Digits, and at most one underscore between two of them. -/
inductive Digits (digits : List Char) : List Char → Prop
  | one {c : Char} (hc : c ∈ digits) : Digits digits [c]
  | next {c : Char} {w : List Char} (hc : c ∈ digits) (hw : Digits digits w) :
      Digits digits (c :: w)
  | apart {c : Char} {w : List Char} (hc : c ∈ digits) (hw : Digits digits w) :
      Digits digits (c :: '_' :: w)

/-- The letters that stand for a base behind a zero, with the digits of the base. -/
def bases : List (List Char × List Char) :=
  [(['x', 'X'], hexDigits), (['o', 'O'], octalDigits), (['b', 'B'], binaryDigits)]

inductive IsInteger : List Char → Prop
  | decimal {w : List Char} (hw : Digits decimalDigits w) : IsInteger w
  | based {marks digits w : List Char} {mark : Char} (hb : (marks, digits) ∈ bases)
      (hm : mark ∈ marks) (hw : Digits digits w) : IsInteger ('0' :: mark :: w)

/-- A point with digits on both sides of it or on one. -/
inductive Pointed : List Char → Prop
  | around {w v : List Char} (hw : Digits decimalDigits w) (hv : Digits decimalDigits v) :
      Pointed (w ++ '.' :: v)
  | before {w : List Char} (hw : Digits decimalDigits w) : Pointed (w ++ ['.'])
  | behind {v : List Char} (hv : Digits decimalDigits v) : Pointed ('.' :: v)

inductive IsFloat : List Char → Prop
  | pointed {w : List Char} (hw : Pointed w) : IsFloat w
  | exponent {mark : Char} {w sign v : List Char} (hw : Digits decimalDigits w ∨ Pointed w)
      (hm : mark ∈ ['e', 'E']) (hs : sign ∈ [[], ['+'], ['-']]) (hv : Digits decimalDigits v) :
      IsFloat (w ++ mark :: (sign ++ v))

def IsNumeral (w : List Char) : Prop := IsInteger w ∨ IsFloat w

/-- There is no sign in the number, and a digit stands behind each of its points. -/
def Undivided (w : List Char) : Prop :=
  '+' ∉ w ∧ '-' ∉ w ∧ ∀ front back, w = front ++ '.' :: back → back.head?.any Char.isDigit = true

/-- Neither a letter, a digit or an underscore nor a point before a digit starts the text. -/
def EndsNumbers (rest : List Char) : Prop :=
  ∀ c cs, rest = c :: cs →
    c.isAlphanum = false ∧ c ≠ '_' ∧ (c = '.' → cs.head?.any Char.isDigit = false)

theorem undivided_cons : Undivided (c :: w) ↔
    c ≠ '+' ∧ c ≠ '-' ∧ (c = '.' → w.head?.any Char.isDigit = true) ∧ Undivided w := by
  constructor
  · rintro ⟨hp, hm, hdot⟩
    simp only [List.mem_cons, not_or] at hp hm
    refine ⟨Ne.symm hp.1, Ne.symm hm.1, ?_, hp.2, hm.2, ?_⟩
    · rintro rfl
      exact hdot [] w rfl
    · rintro front back rfl
      exact hdot (c :: front) back rfl
  · rintro ⟨hp, hm, hdot, hps, hms, hdots⟩
    refine ⟨by simp [Ne.symm hp, hps], by simp [Ne.symm hm, hms], ?_⟩
    intro front back heq
    cases front with
    | nil =>
      obtain ⟨rfl, rfl⟩ := List.cons.inj heq
      exact hdot rfl
    | cons d front =>
      obtain ⟨rfl, rfl⟩ := List.cons.inj heq
      exact hdots front back rfl

instance : DecidablePred Undivided
  | [] => isTrue (by simp [Undivided])
  | _ :: w =>
    haveI := instDecidablePredListCharUndivided w
    decidable_of_iff _ undivided_cons.symm

instance : DecidablePred EndsNumbers
  | [] => isTrue (by simp [EndsNumbers])
  | c :: cs =>
    decidable_of_iff
      (c.isAlphanum = false ∧ c ≠ '_' ∧ (c = '.' → cs.head?.any Char.isDigit = false))
      (by simp [EndsNumbers])

/-! ## The characters of numbers -/

/-- The characters that numbers are written with. -/
def characters : List Char := hexDigits ++ "xXoObB_.+-".toList

theorem Digits.subset (h : Digits digits w) (hd : '_' :: digits ⊆ cs) : w ⊆ cs := by
  obtain ⟨hu, hd⟩ := List.cons_subset.mp hd
  induction h with
  | one hc => simp [hd hc]
  | next hc _ ih => simp [hd hc, ih]
  | apart hc _ ih => simp [hd hc, hu, ih]

theorem Pointed.subset (h : Pointed w) (hd : '.' :: '_' :: decimalDigits ⊆ cs) : w ⊆ cs := by
  obtain ⟨hp, hd⟩ := List.cons_subset.mp hd
  cases h with
  | around hw hv => simp [hp, hw.subset hd, hv.subset hd]
  | before hw => simp [hp, hw.subset hd]
  | behind hv => simp [hp, hv.subset hd]

/-- Neither a point nor a sign is in an integer. -/
theorem IsInteger.subset (h : IsInteger w) : w ⊆ hexDigits ++ "xXoObB_".toList := by
  cases h with
  | decimal hw => exact hw.subset (by decide)
  | based hb hm hw =>
    have hbases : ∀ b ∈ bases, b.1 ⊆ hexDigits ++ "xXoObB_".toList ∧
        '_' :: b.2 ⊆ hexDigits ++ "xXoObB_".toList := by decide
    obtain ⟨hmarks, hdigits⟩ := hbases _ hb
    rw [List.cons_subset, List.cons_subset]
    exact ⟨by decide, hmarks hm, hw.subset hdigits⟩

theorem IsInteger.undivided (h : IsInteger w) : Undivided w := by
  have hne : ∀ c ∈ hexDigits ++ "xXoObB_".toList, c ≠ '+' ∧ c ≠ '-' ∧ c ≠ '.' :=
    List.all_iff_forall_prop.mp (by decide)
  refine ⟨fun hp => (hne _ (h.subset hp)).1 rfl, fun hm => (hne _ (h.subset hm)).2.1 rfl, ?_⟩
  rintro front back rfl
  exact absurd rfl (hne '.' (h.subset (by simp))).2.2

/-- No letter is in a float but the mark of its exponent. -/
theorem IsFloat.subset (h : IsFloat w) : w ⊆ decimalDigits ++ "_.eE+-".toList := by
  cases h with
  | pointed hw => exact hw.subset (by decide)
  | @exponent mark w sign v hw hm hs hv =>
    have hmark : ['e', 'E'] ⊆ decimalDigits ++ "_.eE+-".toList := by decide
    have hsign : ∀ s ∈ [[], ['+'], ['-']], s ⊆ decimalDigits ++ "_.eE+-".toList := by decide
    have hmantissa : w ⊆ decimalDigits ++ "_.eE+-".toList :=
      hw.elim (fun hw => hw.subset (by decide)) fun hw => hw.subset (by decide)
    simp only [List.append_subset, List.cons_subset]
    exact ⟨hmantissa, hmark hm, hsign sign hs, hv.subset (by decide)⟩

theorem IsNumeral.subset (h : IsNumeral w) : w ⊆ characters := by
  rcases h with h | h
  · exact List.Subset.trans h.subset (by decide)
  · exact List.Subset.trans h.subset (by decide)

/-! ## Where the scanner starts a number -/

/-- The text starts with a digit, or with a point before one. -/
def Opens (w : List Char) : Prop :=
  ∃ c cs, w = c :: cs ∧ (c.isDigit = true ∨ c = '.' ∧ ∃ d ds, cs = d :: ds ∧ d.isDigit = true)

theorem Opens.append (h : Opens w) (rest : List Char) : Opens (w ++ rest) := by
  rcases h with ⟨c, cs, rfl, hc | ⟨rfl, d, ds, rfl, hd⟩⟩
  · exact ⟨c, cs ++ rest, rfl, .inl hc⟩
  · exact ⟨'.', d :: (ds ++ rest), rfl, .inr ⟨rfl, d, ds ++ rest, rfl, hd⟩⟩

theorem Digits.exists_digit (h : Digits decimalDigits w) :
    ∃ c cs, w = c :: cs ∧ c.isDigit = true := by
  have hd : ∀ c ∈ decimalDigits, c.isDigit = true :=
    List.all_iff_forall_prop.mp (by decide)
  cases h with
  | one hc => exact ⟨_, _, rfl, hd _ hc⟩
  | next hc _ => exact ⟨_, _, rfl, hd _ hc⟩
  | apart hc _ => exact ⟨_, _, rfl, hd _ hc⟩

theorem Digits.opens (h : Digits decimalDigits w) : Opens w := by
  obtain ⟨c, cs, hw, hc⟩ := h.exists_digit
  exact ⟨c, cs, hw, .inl hc⟩

theorem Pointed.opens (h : Pointed w) : Opens w := by
  cases h with
  | around hw _ => exact hw.opens.append _
  | before hw => exact hw.opens.append _
  | behind hv => exact ⟨'.', _, rfl, .inr ⟨rfl, hv.exists_digit⟩⟩

theorem IsNumeral.opens (h : IsNumeral w) : Opens w := by
  rcases h with h | h
  · cases h with
    | decimal hw => exact hw.opens
    | based => exact ⟨'0', _, rfl, .inl rfl⟩
  · cases h with
    | pointed hw => exact hw.opens
    | exponent hw => exact (hw.elim Digits.opens Pointed.opens).append _

end Numeral

namespace Lexeme

open Numeral

theorem inTags_number (h : Opens w) : inTags ⟨pos, w⟩ = number ⟨pos, w⟩ := by
  obtain ⟨c, cs, rfl, hc⟩ := h
  have hne {d : Char} (hdigit : d.isDigit = false) (hdot : d ≠ '.') : c ≠ d := by
    rintro rfl
    simp [hdigit, hdot] at hc
  unfold inTags
  split
  · next h => cases h
  · next h => exact absurd (List.cons.inj h).1 (hne (by decide) (by decide))
  · next h => exact absurd (List.cons.inj h).1 (hne (by decide) (by decide))
  · next h => exact absurd (List.cons.inj h).1 (hne (by decide) (by decide))
  · next h => exact absurd (List.cons.inj h).1 (hne (by decide) (by decide))
  · next h =>
    obtain ⟨rfl, rfl⟩ := List.cons.inj h
    have hstart : (c.isDigit || c == '.' && cs.head?.any Char.isDigit) = true := by
      rcases hc with hc | ⟨rfl, d, ds, rfl, hd⟩
      · simp [hc]
      · simp [hd]
    rw [if_pos hstart]

/-! ## Where the scanner ends a number -/

theorem numberEnd_eq_self_iff : numberEnd pos rest = ⟨pos, rest⟩ ↔ EndsNumbers rest := by
  cases rest with
  | nil => simp [numberEnd, EndsNumbers]
  | cons c cs =>
    constructor
    · intro h d ds heq
      obtain ⟨rfl, rfl⟩ := List.cons.inj heq
      rw [numberEnd] at h
      split at h
      · have hle := (runs_numberEnd (pos + 1) cs).length_le
        rw [h] at hle
        simp at hle
      · next hc => simpa [and_assoc] using hc
    · intro h
      obtain ⟨ha, hu, hdot⟩ := h c cs rfl
      have hc : ¬(c.isAlphanum || c == '_' || c == '.' && cs.head?.any Char.isDigit) = true := by
        simpa [ha, hu] using hdot
      rw [numberEnd, if_neg hc]

/-- A text that ends numbers gives no digit to a point in front of it. -/
theorem any_head?_append (hr : EndsNumbers rest) (w : List Char) :
    (w ++ rest).head?.any Char.isDigit = w.head?.any Char.isDigit := by
  cases w with
  | cons => rfl
  | nil =>
    cases rest with
    | nil => rfl
    | cons c cs =>
      obtain ⟨ha, -, -⟩ := hr c cs rfl
      have hd : c.isDigit = false := (Bool.or_eq_false_iff.mp ha).2
      simp [hd]

/-- Of the characters of numbers the scanner leaves the signs, and points that no digit follows. -/
theorem taken_iff (hc : c ∈ characters) (cs : List Char) :
    (c.isAlphanum || c == '_' || c == '.' && cs.head?.any Char.isDigit) = true ↔
      c ≠ '+' ∧ c ≠ '-' ∧ (c = '.' → cs.head?.any Char.isDigit = true) := by
  have hsorts : ∀ c ∈ characters, (c.isAlphanum = true ∧ c ≠ '+' ∧ c ≠ '-' ∧ c ≠ '.') ∨
      c = '_' ∨ c = '.' ∨ c = '+' ∨ c = '-' :=
    List.all_iff_forall_prop.mp (by decide)
  rcases hsorts c hc with ⟨ha, hp, hm, hdot⟩ | rfl | rfl | rfl | rfl
  · simp [ha, hp, hm, hdot]
  · simp
  · simp [show '.'.isAlphanum = false by decide]
  · simp [show '+'.isAlphanum = false by decide]
  · simp [show '-'.isAlphanum = false by decide]

/-- The scanner takes a number and no more than that exactly if the number is undivided. -/
theorem numberEnd_eq_iff (hw : w ⊆ characters) (pos : Nat) :
    numberEnd pos (w ++ rest) = ⟨pos + utf8Len w, rest⟩ ↔ Undivided w ∧ EndsNumbers rest := by
  induction w generalizing pos with
  | nil =>
    have hnil : Undivided [] := by decide
    simp [numberEnd_eq_self_iff, hnil]
  | cons c w ih =>
    obtain ⟨hc, hw⟩ := List.cons_subset.mp hw
    have hascii : ∀ c ∈ characters, c.utf8Size = 1 := List.all_iff_forall_prop.mp (by decide)
    have hlen : pos + utf8Len (c :: w) = pos + 1 + utf8Len w := by
      rw [String.utf8Len_cons, hascii c hc]
      omega
    rw [hlen, List.cons_append, numberEnd, undivided_cons]
    -- Only a point at the end of the number looks at what is behind it, and sees no digit there.
    split
    · next ht =>
      rw [ih hw, and_congr_left_iff]
      intro hr
      obtain ⟨hp, hm, hdot⟩ := (taken_iff hc w).mp (any_head?_append hr w ▸ ht)
      exact ⟨fun hu => ⟨hp, hm, hdot, hu⟩, fun h => h.2.2.2⟩
    · next ht =>
      constructor
      · intro h
        have hl := congrArg (fun c : Cursor => c.rest.length) h
        simp at hl
        omega
      · rintro ⟨⟨hp, hm, hdot, -⟩, hr⟩
        rw [any_head?_append hr] at ht
        exact absurd ((taken_iff hc w).mpr ⟨hp, hm, hdot⟩) ht

end Lexeme

namespace Token

open Numeral

/-- A number is one token exactly if it is undivided and what follows ends it; the value is the
number without its underscores. -/
theorem next_number_iff (hn : IsNumeral w) :
    next true ⟨pos, w ++ rest⟩ =
        (⟨.number, pos, pos + utf8Len w, String.ofList w, String.ofList (w.filter (· != '_')), none⟩,
          ⟨pos + utf8Len w, rest⟩, true) ↔ Undivided w ∧ EndsNumbers rest := by
  rw [← Lexeme.numberEnd_eq_iff hn.subset pos]
  have hl : Lexeme.inTags ⟨pos, w ++ rest⟩ = Lexeme.number ⟨pos, w ++ rest⟩ :=
    Lexeme.inTags_number (hn.opens.append rest)
  have hsub := hn.subset
  obtain ⟨c, w, rfl, -⟩ := hn.opens
  have hc := hsub List.mem_cons_self
  have hstart : ∀ c ∈ characters, Trivia.isGap c = false ∧ c ≠ '#' ∧ c ≠ '/' :=
    List.all_iff_forall_prop.mp (by decide)
  obtain ⟨hg, hh, hs⟩ := hstart c hc
  constructor
  · intro h
    rw [List.cons_append] at h hl ⊢
    rw [next_of_lexeme hg hh hs hl (by simp [Lexeme.number]) (by simp [Lexeme.number])] at h
    exact congrArg (·.2.1) h
  · intro h
    refine next_written hg hh hs (by decide) (by decide) ?_
    rw [hl]
    simp only [Lexeme.number, h, Cursor.textTo_append]

/-- An exponent with a sign stands apart from its number. -/
theorem next_signedExponent :
    IsNumeral "1e-5".toList ∧ EndsNumbers [';'] ∧
      next true ⟨6, "1e-5".toList ++ [';']⟩ =
        (⟨.number, 6, 8, "1e", "1e", none⟩, ⟨8, "-5;".toList⟩, true) := by
  have hone : Digits decimalDigits ['1'] := .one (by decide)
  have hfive : Digits decimalDigits ['5'] := .one (by decide)
  have hw : IsNumeral (['1'] ++ 'e' :: (['-'] ++ ['5'])) :=
    .inr (.exponent (.inl hone) (by decide) (by decide) hfive)
  exact ⟨hw, by decide, by decide +kernel⟩

end Token

end PhpAtlas
