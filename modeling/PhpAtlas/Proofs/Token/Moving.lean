import Mathlib.Data.String.Basic
import PhpAtlas.Proofs.Token.Kinds

/-! # Moving through a text

Whatever a reader of the scanner takes, its place moves over whole characters.
How much of the text is left then and how far the place has come follows from
that alone.
-/

namespace PhpAtlas

open String (utf8Len)

variable {c : Char} {cs rest : List Char} {pos : Nat}

/-! ## Bytes -/

theorem takeBytesOnto_append (taken w rest : List Char) :
    takeBytesOnto taken (utf8Len w) (w ++ rest) = some (taken.reverse ++ w) := by
  induction w generalizing taken with
  | nil => cases rest <;> simp [takeBytesOnto]
  | cons c w ih =>
    have hc := c.utf8Size_pos
    have hlen : utf8Len (c :: w) = utf8Len w + c.utf8Size := rfl
    obtain ⟨n, hn⟩ : ∃ n, utf8Len (c :: w) = n + 1 := Nat.exists_eq_add_one.mpr (by omega)
    have hw : n + 1 - c.utf8Size = utf8Len w := by omega
    rw [hn, List.cons_append, takeBytesOnto, if_pos (by omega), hw, ih]
    simp

@[simp] theorem Cursor.textTo_append (pos : Nat) (w rest : List Char) :
    textTo ⟨pos, w ++ rest⟩ (pos + utf8Len w) = w := by
  rw [textTo, Nat.add_sub_cancel_left, takeBytes, takeBytes?, takeBytesOnto_append]
  rfl

/-! ## Places in one text -/

namespace Cursor

variable {a b d : Cursor}

/-- The second place is further on in the same text. A place at the end can still move past it. -/
inductive Leads : Cursor → Cursor → Prop
  | refl (c : Cursor) : Leads c c
  | step {pos : Nat} {c : Char} {cs : List Char} {b : Cursor}
      (h : Leads ⟨pos + c.utf8Size, cs⟩ b) : Leads ⟨pos, c :: cs⟩ b
  | past {pos : Nat} {b : Cursor} (h : Leads ⟨pos + 1, []⟩ b) : Leads ⟨pos, []⟩ b

theorem Leads.trans (h : Leads a b) (h' : Leads b d) : Leads a d := by
  induction h with
  | refl => exact h'
  | step _ ih => exact .step (ih h')
  | past _ ih => exact .past (ih h')

/-- The second place is further on in the same text, at the end of the text at most. -/
inductive Runs : Cursor → Cursor → Prop
  | refl (c : Cursor) : Runs c c
  | step {pos : Nat} {c : Char} {cs : List Char} {b : Cursor}
      (h : Runs ⟨pos + c.utf8Size, cs⟩ b) : Runs ⟨pos, c :: cs⟩ b

theorem Runs.leads (h : Runs a b) : Leads a b := by
  induction h with
  | refl => exact .refl _
  | step _ ih => exact .step ih

theorem Runs.trans (h : Runs a b) (h' : Runs b d) : Runs a d := by
  induction h with
  | refl => exact h'
  | step _ ih => exact .step (ih h')

/-- A character of one byte. -/
theorem Runs.ascii (hc : c.utf8Size = 1) (h : Runs ⟨pos + 1, cs⟩ b) : Runs ⟨pos, c :: cs⟩ b :=
  .step (hc ▸ h)

/-- A character of one byte. -/
theorem Leads.ascii (hc : c.utf8Size = 1) (h : Leads ⟨pos + 1, cs⟩ b) : Leads ⟨pos, c :: cs⟩ b :=
  .step (hc ▸ h)

theorem Leads.length_le (h : Leads a b) : b.rest.length ≤ a.rest.length := by
  induction h with
  | refl => exact le_rfl
  | step _ ih => exact ih.trans (Nat.le_succ _)
  | past _ ih => exact ih

theorem Leads.pos_le (h : Leads a b) : a.pos ≤ b.pos := by
  induction h with
  | refl => exact le_rfl
  | step _ ih => exact (Nat.le_add_right _ _).trans ih
  | past _ ih => exact (Nat.le_succ _).trans ih

/-- A place that has moved on has left a character behind. -/
theorem Leads.length_lt (h : Leads a b) (hr : a.rest ≠ []) (hp : a.pos < b.pos) :
    b.rest.length < a.rest.length := by
  cases h with
  | refl => exact absurd hp (Nat.lt_irrefl _)
  | step h => exact Nat.lt_succ_of_le h.length_le
  | past => exact absurd rfl hr

/-- Past the end of the text nothing is left. -/
theorem Leads.runs (h : Leads a b) (hb : b.rest ≠ []) : Runs a b := by
  induction h with
  | refl => exact .refl _
  | step _ ih => exact .step (ih hb)
  | past h => exact absurd (List.eq_nil_of_length_eq_zero (Nat.le_zero.mp h.length_le)) hb

theorem Runs.length_le (h : Runs a b) : b.rest.length ≤ a.rest.length := h.leads.length_le

theorem Runs.pos_le (h : Runs a b) : a.pos ≤ b.pos := h.leads.pos_le

/-- What stands between two places of a text. -/
theorem Runs.exists_append (h : Runs a b) :
    ∃ w, a.rest = w ++ b.rest ∧ b.pos = a.pos + utf8Len w := by
  induction h with
  | refl => exact ⟨[], rfl, rfl⟩
  | @step pos c cs b _ ih =>
    obtain ⟨w, hw, hp⟩ := ih
    refine ⟨c :: w, congrArg (c :: ·) hw, ?_⟩
    rw [hp, String.utf8Len_cons, Nat.add_assoc, Nat.add_comm (utf8Len w)]

theorem Runs.textTo_ne_nil (h : Runs a b) (hp : a.pos < b.pos) : a.textTo b.pos ≠ [] := by
  obtain ⟨w, hw, hb⟩ := h.exists_append
  obtain ⟨pos, cs⟩ := a
  simp only at hw hb hp
  rw [hb, hw, textTo_append]
  rintro rfl
  rw [hb] at hp
  exact Nat.lt_irrefl _ hp

theorem runs_skipWhile (p : Char → Bool) (pos : Nat) (cs : List Char) :
    Runs ⟨pos, cs⟩ (skipWhile p pos cs) := by
  induction cs generalizing pos with
  | nil => exact .refl _
  | cons c cs ih =>
    rw [skipWhile]
    split
    · exact .step (ih _)
    · exact .refl _

theorem runs_last (c : Cursor) : Runs c c.last := runs_skipWhile _ _ _

theorem rest_last (c : Cursor) : c.last.rest = [] := by
  obtain ⟨pos, cs⟩ := c
  unfold last
  induction cs generalizing pos with
  | nil => rfl
  | cons c cs ih => exact ih _

theorem runs_find? {pattern : List Char} {found : Cursor}
    (h : find? pattern pos cs = some found) : Runs ⟨pos, cs⟩ found := by
  induction cs generalizing pos with
  | nil => cases h
  | cons c cs ih =>
    rw [find?] at h
    split at h
    · cases h
      exact .refl _
    · exact .step (ih h)

/-- The pattern stands at the place itself if the search does not move on. -/
theorem isPrefixOf_find? {pattern : List Char} {found : Cursor}
    (h : find? pattern pos cs = some found) (hp : found.pos ≤ pos) :
    pattern.isPrefixOf cs = true := by
  cases cs with
  | nil => cases h
  | cons c cs =>
    rw [find?] at h
    split at h
    · assumption
    · have hl := (runs_find? h).pos_le
      have hc := c.utf8Size_pos
      simp only at hl
      omega

/-- The first character that is left does not satisfy the condition. -/
theorem head_skipWhile {p : Char → Bool} (h : (skipWhile p pos cs).rest = c :: rest) :
    p c = false := by
  induction cs generalizing pos with
  | nil => cases h
  | cons d cs ih =>
    rw [skipWhile] at h
    split at h
    · exact ih h
    · next hd =>
      obtain ⟨rfl, -⟩ := List.cons.inj h
      simpa using hd

theorem runs_tail (hc : c.utf8Size = 1) (h : a.rest.head? = some c) :
    Runs a ⟨a.pos + 1, a.rest.drop 1⟩ := by
  obtain ⟨pos, cs⟩ := a
  obtain ⟨ds, rfl⟩ := List.head?_eq_some_iff.mp h
  exact .ascii hc (.refl _)

/-- Past characters of one byte each. -/
theorem runs_drop {w : List Char} (hw : ∀ c ∈ w, c.utf8Size = 1) (h : w <+: cs) :
    Runs ⟨pos, cs⟩ ⟨pos + w.length, cs.drop w.length⟩ := by
  obtain ⟨cs, rfl⟩ := h
  rw [List.drop_left]
  induction w generalizing pos with
  | nil => exact .refl _
  | cons c w ih =>
    obtain ⟨hc, hw⟩ := List.forall_mem_cons.mp hw
    refine .ascii hc ?_
    have hle : Runs ⟨pos + 1, w ++ cs⟩ ⟨pos + 1 + w.length, cs⟩ := ih hw
    rwa [Nat.add_assoc, Nat.add_comm 1] at hle

end Cursor

/-! ## Trivia -/

namespace Trivia

theorem utf8Size_of_isGap (h : isGap c = true) : c.utf8Size = 1 := by
  simp only [isGap, Bool.or_eq_true, beq_iff_eq] at h
  obtain ((rfl | rfl) | rfl) | rfl := h <;> rfl

theorem leads_skip (doc : Option String) (state : Trivia) (pos : Nat) (cs : List Char) :
    Cursor.Leads ⟨pos, cs⟩ (skip doc state pos cs).1 := by
  fun_induction skip doc state pos cs with
  | case1 _ _ _ ih => exact .ascii rfl (.ascii rfl ih)
  | case2 _ _ _ _ ih => exact .ascii rfl ih
  | case3 _ _ _ ih => exact .ascii rfl (.ascii rfl ih)
  | case4 _ _ _ ih => exact .ascii rfl (.ascii rfl ih)
  | case5 _ _ _ _ _ _ _ _ hc ih => exact .ascii (utf8Size_of_isGap hc) ih
  | case6 => exact .refl _
  | case7 => exact .refl _
  | case8 _ _ _ _ _ ih => exact .step ih
  | case9 _ _ _ _ ih => exact .ascii rfl (.ascii rfl ih)
  | case10 _ _ _ _ _ _ ih => exact .step ih
  | case11 => exact .refl _
  | case12 _ _ _ _ _ ih => exact .step ih
  | case13 _ _ _ _ _ _ ih => exact .ascii rfl (.step ih)
  | case14 => exact .ascii rfl (.past (.refl _))
  | case15 _ _ _ _ _ _ _ _ ih => exact .step ih
  | case16 => exact .refl _

end Trivia

/-! ## Quoted texts and heredocs -/

theorem Quoted.runs_closing {quote : Char} (hq : quote.utf8Size = 1) (hd : quote ≠ '"') (pos : Nat)
    (cs : List Char) : Cursor.Runs ⟨pos, cs⟩ (closing quote pos cs).1 := by
  fun_induction closing quote pos cs with
  | case1 _ _ _ ih => exact .ascii rfl (.step ih)
  | case2 =>
    rw [if_neg (by simpa using hd)]
    exact .ascii rfl (.refl _)
  | case3 _ _ _ _ _ hc =>
    obtain rfl := eq_of_beq hc
    exact .ascii hq (.refl _)
  | case4 _ _ _ _ _ _ ih => exact .step ih
  | case5 => exact .refl _

theorem Quoted.leads_closing (quote : Char) (hq : quote.utf8Size = 1) (pos : Nat)
    (cs : List Char) : Cursor.Leads ⟨pos, cs⟩ (closing quote pos cs).1 := by
  fun_induction closing quote pos cs with
  | case1 _ _ _ ih => exact .ascii rfl (.step ih)
  | case2 =>
    split
    · exact .ascii rfl (.past (.refl _))
    · exact .ascii rfl (.refl _)
  | case3 _ _ _ _ _ hc =>
    obtain rfl := eq_of_beq hc
    exact .ascii hq (.refl _)
  | case4 _ _ _ _ _ _ ih => exact .step ih
  | case5 => exact .refl _

namespace Heredoc

/-- The place that reading has come to, with a result or without one. -/
def placeAfter : Except Cursor (List Char × Cursor) → Cursor
  | .ok (_, after) => after
  | .error after => after

theorem runs_closingLine {label : List Char} {fresh : Bool} {line : Cursor}
    (h : closingLine label fresh pos cs = some line) : Cursor.Runs ⟨pos, cs⟩ line := by
  induction cs generalizing fresh pos with
  | nil => cases h
  | cons c cs ih =>
    rw [closingLine] at h
    split at h
    · obtain rfl := Option.some.inj h
      exact .refl _
    · exact .step (ih h)

theorem runs_openQuote (opened : Cursor) : Cursor.Runs opened (openQuote opened).2 := by
  obtain ⟨pos, cs⟩ := opened
  unfold openQuote
  split
  · next hr =>
    obtain rfl : cs = _ := hr
    exact .ascii rfl (.refl _)
  · next hr =>
    obtain rfl : cs = _ := hr
    exact .ascii rfl (.refl _)
  · exact .refl _

/-- A quote before a label is one of the two. -/
theorem utf8Size_of_openQuote {opened : Cursor} {q : Char} (h : (openQuote opened).1 = some q) :
    q.utf8Size = 1 := by
  unfold openQuote at h
  split at h
  · cases h
    rfl
  · cases h
    rfl
  · cases h

theorem runs_label {quote : Option Char} (hq : ∀ q ∈ quote, q.utf8Size = 1) (start : Cursor) :
    Cursor.Runs start (placeAfter (label quote start)) := by
  have hn : Cursor.Runs start (Cursor.skipWhile isNamePart start.pos start.rest) :=
    Cursor.runs_skipWhile _ _ _
  unfold label
  cases quote with
  | none => exact hn
  | some q =>
    simp only
    split
    · next hr => exact hn.trans (Cursor.runs_tail (hq q rfl) hr)
    · exact hn

theorem runs_header (pos : Nat) (cs : List Char) :
    Cursor.Runs ⟨pos, cs⟩ (placeAfter (header pos cs)) := by
  have ho := Cursor.runs_skipWhile isIndent pos cs
  have hq := runs_openQuote (Cursor.skipWhile isIndent pos cs)
  unfold header
  simp only
  split
  · exact ho.trans (hq.trans (runs_label (fun _ => utf8Size_of_openQuote) _))
  · exact .refl _

theorem runs_text (label : List Char) (headerEnd : Cursor) :
    Cursor.Runs headerEnd (placeAfter (text label headerEnd)) := by
  have hn := Cursor.runs_skipWhile (· != '\n') headerEnd.pos headerEnd.rest
  unfold text
  extract_lets newline start
  split
  · exact hn
  · next he =>
    obtain ⟨c, ds, hr⟩ := List.ne_nil_iff_exists_cons.mp (by simpa using he)
    have hc : c = '\n' := by simpa using Cursor.head_skipWhile hr
    have hl : Cursor.Runs newline start :=
      Cursor.runs_tail (hc ▸ rfl) (List.head?_eq_some_iff.mpr ⟨ds, hr⟩)
    cases hf : closingLine label true start.pos start.rest with
    | none => exact hn.trans (hl.trans start.runs_last)
    | some line =>
      have hi : Cursor.Runs line _ := Cursor.runs_skipWhile isIndent line.pos line.rest
      exact (hn.trans hl).trans
        ((runs_closingLine hf).trans (hi.trans (Cursor.runs_skipWhile ..)))

theorem runs_read (pos : Nat) (cs : List Char) :
    Cursor.Runs ⟨pos, cs⟩ (placeAfter (read pos cs)) := by
  have hh := runs_header pos cs
  unfold read
  cases h : header pos cs with
  | ok found =>
    rw [h] at hh
    exact hh.trans (runs_text _ _)
  | error after =>
    rw [h] at hh
    exact hh

end Heredoc

/-! ## Lexemes -/

theorem utf8Size_of_isAlphanum (h : c.isAlphanum = true) : c.utf8Size = 1 := by
  have h : (decide (c.val ≥ 'A'.val ∧ c.val ≤ 'Z'.val) ||
      (decide (c.val ≥ 'a'.val) && decide (c.val ≤ 'z'.val)) ||
      (decide (c.val ≥ '0'.val) && decide (c.val ≤ '9'.val))) = true := h
  simp only [Bool.or_eq_true, Bool.and_eq_true, decide_eq_true_eq] at h
  rw [Char.utf8Size_eq_one_iff]
  obtain (⟨-, h⟩ | ⟨-, h⟩) | ⟨-, h⟩ := h
  · exact UInt32.le_trans h (by decide)
  · exact UInt32.le_trans h (by decide)
  · exact UInt32.le_trans h (by decide)

/-- What no name can start with is ASCII. -/
theorem utf8Size_of_not_isNameStart (h : isNameStart c = false) : c.utf8Size = 1 := by
  simp only [isNameStart, Bool.or_eq_false_iff, decide_eq_false_iff_not, not_le] at h
  rw [Char.utf8Size_eq_one_iff, UInt32.le_iff_toNat_le]
  exact Nat.le_of_lt_succ h.2

theorem isNamePart_of_isNameStart (h : isNameStart c = true) : isNamePart c = true := by
  simp only [isNameStart, Bool.or_eq_true] at h
  simp only [isNamePart, Char.isAlphanum, Bool.or_eq_true]
  tauto

theorem ne_backslash_of_isNamePart (h : isNamePart c = true) : c ≠ '\\' := by
  rintro rfl
  exact absurd h (by decide)

namespace Lexeme

theorem runs_dollar (pos : Nat) (cs : List Char) :
    Cursor.Runs ⟨pos + 1, cs⟩ (dollar pos cs).after := by
  unfold dollar
  split
  · exact Cursor.runs_skipWhile ..
  · exact .refl _

theorem after_quoted (quote : Char) (body : Cursor) :
    (quoted quote body).after = (Quoted.closing quote body.pos body.rest).1 := by
  unfold quoted
  split
  · next hc => rw [hc]
  · next hc => rw [hc, unknown]

theorem runs_quoted {quote : Char} (hq : quote.utf8Size = 1) (hd : quote ≠ '"') (body : Cursor) :
    Cursor.Runs body (quoted quote body).after :=
  after_quoted quote body ▸ Quoted.runs_closing hq hd body.pos body.rest

theorem leads_quoted {quote : Char} (hq : quote.utf8Size = 1) (body : Cursor) :
    Cursor.Leads body (quoted quote body).after :=
  after_quoted quote body ▸ Quoted.leads_closing quote hq body.pos body.rest

theorem runs_nameEnd (pos : Nat) (cs : List Char) :
    Cursor.Runs ⟨pos, cs⟩ (nameEnd pos cs) := by
  fun_induction nameEnd pos cs with
  | case1 _ _ _ _ ih => exact .ascii rfl (.step ih)
  | case2 => exact .refl _
  | case3 _ _ _ _ _ ih => exact .step ih
  | case4 => exact .refl _
  | case5 => exact .refl _

theorem nameEnd_part (h : isNamePart c = true) :
    nameEnd pos (c :: cs) = nameEnd (pos + c.utf8Size) cs := by
  have hc := ne_backslash_of_isNamePart h
  rw [nameEnd]
  · rw [if_pos h]
  · rintro _ _ rfl
    exact absurd rfl hc

/-- Only a backslash is no name by itself. -/
theorem runs_name {start : Cursor} (hr : start.rest = c :: cs) (hc : OpensName c) :
    Cursor.Runs start (name start).after := by
  obtain ⟨pos, rest⟩ := start
  obtain rfl : rest = c :: cs := hr
  have hruns := runs_nameEnd pos (c :: cs)
  simp only [name]
  split
  · next he =>
    rcases hc with rfl | hs
    · exact .ascii rfl (.refl _)
    · have hp : pos < (nameEnd pos (c :: cs)).pos := by
        rw [nameEnd_part (isNamePart_of_isNameStart hs)]
        exact (Nat.lt_add_of_pos_right c.utf8Size_pos).trans_le (runs_nameEnd _ cs).pos_le
      exact absurd (List.isEmpty_iff.mp he) (hruns.textTo_ne_nil hp)
  · exact hruns

theorem runs_numberEnd (pos : Nat) (cs : List Char) :
    Cursor.Runs ⟨pos, cs⟩ (numberEnd pos cs) := by
  induction cs generalizing pos with
  | nil => exact .refl _
  | cons c cs ih =>
    rw [numberEnd]
    split
    · next hc =>
      have hs : c.utf8Size = 1 := by
        simp only [Bool.or_eq_true, Bool.and_eq_true, beq_iff_eq] at hc
        rcases hc with (ha | rfl) | ⟨rfl, -⟩
        · exact utf8Size_of_isAlphanum ha
        · rfl
        · rfl
      exact .ascii hs (ih _)
    · exact .refl _

theorem ascii_of_all {cs : List Char} (h : cs.all (·.utf8Size == 1) = true) :
    ∀ c ∈ cs, c.utf8Size = 1 := by
  simpa using h

theorem spellings_ascii : ∀ s ∈ spellings, ∀ c ∈ s.1, c.utf8Size = 1 := by
  have hall : ∀ s ∈ spellings, s.1.all (·.utf8Size == 1) = true := by decide +kernel
  exact fun s hs => ascii_of_all (hall s hs)

theorem runs_punctuation {start : Cursor} (hr : start.rest = c :: cs) (hc : c.utf8Size = 1) :
    Cursor.Runs start (punctuation start).after := by
  obtain ⟨pos, rest⟩ := start
  obtain rfl : rest = c :: cs := hr
  unfold punctuation
  split
  · exact .ascii hc (.refl _)
  · next text kind hs =>
    extract_lets after
    have hw : text <+: c :: cs := by simpa using List.find?_some hs
    have ha : Cursor.Runs ⟨pos, c :: cs⟩ after :=
      Cursor.runs_drop (spellings_ascii _ (List.mem_of_find?_eq_some hs)) hw
    split
    · next ds hn =>
      have hl : Cursor.Runs after ⟨after.pos + 1, after.rest.drop 1⟩ :=
        Cursor.runs_tail (c := '\n') rfl (List.head?_eq_some_iff.mpr ⟨ds, hn⟩)
      rw [hn] at hl
      exact ha.trans hl
    · exact ha
    · exact ha

/-- Only a string in double quotes can end past the end of the text. -/
theorem runs_inTags {start : Cursor} (hs : ∀ cs, start.rest ≠ '"' :: cs) :
    Cursor.Runs start (inTags start).after := by
  obtain ⟨pos, cs⟩ := start
  unfold inTags
  split
  · exact .refl _
  · next cs hr =>
    obtain rfl : _ = '$' :: cs := hr
    exact .ascii rfl (runs_dollar pos cs)
  · next cs hr =>
    obtain rfl : _ = '\'' :: cs := hr
    exact .ascii rfl (runs_quoted rfl (by decide) _)
  · next cs hr => exact absurd hr (hs cs)
  · next cs hr =>
    obtain rfl : _ = '<' :: '<' :: '<' :: cs := hr
    have hh : Cursor.Runs ⟨pos, '<' :: '<' :: '<' :: cs⟩ _ :=
      .ascii rfl (.ascii rfl (.ascii rfl (Heredoc.runs_read (pos + 3) cs)))
    split
    · next hx =>
      rw [hx] at hh
      exact hh
    · next hx =>
      rw [hx] at hh
      exact hh
  · next c cs _ _ _ _ hr =>
    split
    · exact runs_numberEnd pos _
    · split
      · next hc => exact runs_name hr (by simpa [OpensName] using hc)
      · next hc =>
        have hn : isNameStart c = false := by
          simp only [Bool.or_eq_true, not_or] at hc
          exact Bool.eq_false_iff.mpr hc.2
        exact runs_punctuation hr (utf8Size_of_not_isNameStart hn)

theorem leads_inTags (start : Cursor) : Cursor.Leads start (inTags start).after := by
  by_cases hs : ∃ cs, start.rest = '"' :: cs
  · obtain ⟨pos, _⟩ := start
    obtain ⟨cs, rfl⟩ := hs
    exact .ascii rfl (leads_quoted rfl ⟨pos + 1, cs⟩)
  · exact (runs_inTags (not_exists.mp hs)).leads

theorem runs_outsideTags (start : Cursor) : Cursor.Runs start (outsideTags start).after := by
  unfold outsideTags
  extract_lets long short
  split
  · exact .refl _
  · split
    · exact start.runs_last
    · next tag ht =>
      rw [Option.orElse_eq_orElse, Option.orElse_eq_or] at ht
      have hf : ∃ pattern, (pattern = long ∨ pattern = short) ∧
          Cursor.find? pattern start.pos start.rest = some tag := by
        rcases Option.or_eq_some_iff.mp ht with hl | ⟨-, hs⟩
        · exact ⟨long, .inl rfl, hl⟩
        · exact ⟨short, .inr rfl, hs⟩
      obtain ⟨pattern, hp, hf⟩ := hf
      split
      · exact Cursor.runs_find? hf
      · next hlt =>
        have hs := Cursor.isPrefixOf_find? hf (Nat.not_lt.mp hlt)
        have hl : ∀ c ∈ long, c.utf8Size = 1 := ascii_of_all (by decide +kernel)
        have hsh : ∀ c ∈ short, c.utf8Size = 1 := ascii_of_all (by decide +kernel)
        split
        · next hc => exact Cursor.runs_drop hl (List.isPrefixOf_iff_prefix.mp hc)
        · next hc =>
          rcases hp with rfl | rfl
          · exact absurd hs hc
          · exact Cursor.runs_drop hsh (List.isPrefixOf_iff_prefix.mp hs)

end Lexeme

end PhpAtlas
