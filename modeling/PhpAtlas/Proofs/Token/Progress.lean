import PhpAtlas.Proofs.Token.Moving

/-! # Progress of the scanner

Every token but the end of the file takes at least one character, so that the
tokens of a source are a run of the scanner up to the end of the file. A stream
over them stands at the end of the file exactly when no token is ahead.
-/

namespace PhpAtlas

/-! ## Lexemes -/

namespace Lexeme

variable {c : Char} {cs : List Char} {pos : Nat} {start : Cursor}

theorem pos_lt_name (start : Cursor) : start.pos < (name start).after.pos := by
  unfold name
  extract_lets after text
  split
  · exact Nat.lt_succ_self _
  · next ht =>
    refine (runs_nameEnd start.pos start.rest).pos_le.lt_of_ne fun he => ht ?_
    have ha : after.pos = start.pos := he.symm
    simp [text, Cursor.textTo, ha, takeBytes, takeBytes?, takeBytesOnto]

theorem pos_lt_number (h : (c.isDigit || c == '.' && cs.head?.any Char.isDigit) = true) :
    pos < (number ⟨pos, c :: cs⟩).after.pos := by
  have hc : (c.isAlphanum || c == '_' || c == '.' && cs.head?.any Char.isDigit) = true := by
    rcases Bool.or_eq_true_iff.mp h with hd | hd
    · simp [Char.isAlphanum, hd]
    · simp [hd]
  simp only [number]
  rw [numberEnd, if_pos hc]
  exact (runs_numberEnd (pos + 1) cs).pos_le

theorem spellings_ne_nil : ∀ s ∈ spellings, s.1 ≠ [] := by decide +kernel

theorem pos_lt_punctuation (start : Cursor) : start.pos < (punctuation start).after.pos := by
  unfold punctuation
  split
  · exact Nat.lt_succ_self _
  · next text kind hs =>
    have ht : 0 < text.length :=
      List.length_pos_iff.mpr (spellings_ne_nil _ (List.mem_of_find?_eq_some hs))
    extract_lets after
    have ha : start.pos < after.pos := Nat.lt_add_of_pos_right ht
    split
    · exact Nat.lt_succ_of_lt ha
    · exact ha
    · exact ha

theorem pos_lt_inTags (h : start.rest ≠ []) : start.pos < (inTags start).after.pos := by
  obtain ⟨pos, cs⟩ := start
  have hquoted {q : Char} (hq : q.utf8Size = 1) (body : Cursor) :
      body.pos ≤ (quoted q body).after.pos := (leads_quoted hq body).pos_le
  unfold inTags
  split
  · next hr => exact absurd hr h
  · exact (runs_dollar pos _).pos_le
  · exact hquoted rfl ⟨pos + 1, _⟩
  · exact hquoted rfl ⟨pos + 1, _⟩
  · next cs hr =>
    have hh : pos < (Heredoc.placeAfter (Heredoc.read (pos + 3) cs)).pos :=
      (Nat.lt_add_of_pos_right (by decide)).trans_le (Heredoc.runs_read (pos + 3) cs).pos_le
    split
    · next hx =>
      rw [hx] at hh
      exact hh
    · next hx =>
      rw [hx] at hh
      exact hh
  · next c cs _ _ _ _ hr =>
    obtain rfl : _ = c :: cs := hr
    split
    · next hd => exact pos_lt_number hd
    · split
      · exact pos_lt_name _
      · exact pos_lt_punctuation _

theorem pos_lt_outsideTags (h : start.rest ≠ []) : start.pos < (outsideTags start).after.pos := by
  unfold outsideTags
  extract_lets long short
  split
  · next hr => exact absurd hr h
  · split
    · obtain ⟨c, cs, hr⟩ := List.ne_nil_iff_exists_cons.mp h
      show start.pos < start.last.pos
      rw [Cursor.last, hr]
      exact (Nat.lt_add_of_pos_right c.utf8Size_pos).trans_le (Cursor.runs_skipWhile _ _ cs).pos_le
    · split
      · next hlt => exact hlt
      · have hl : 0 < long.length := by decide
        have hs : 0 < short.length := by decide
        refine Nat.lt_add_of_pos_right ?_
        split
        · exact hl
        · exact hs

end Lexeme

/-! ## Runs of the scanner -/

namespace Token

/-- A token that is not the end of the file takes at least one character. -/
theorem next_progress {inTags : Bool} {place : Cursor}
    (h : (next inTags place).1.kind ≠ .endOfFile) :
    (next inTags place).2.1.rest.length < place.rest.length := by
  cases inTags with
  | true =>
    have hs : _ ≤ place.rest.length := (Trivia.leads_skip none .blank place.pos place.rest).length_le
    have hn : (Trivia.skip none .blank place.pos place.rest).1.rest ≠ [] := by
      intro hr
      refine h ?_
      simp only [next, if_true, Lexeme.inTags, hr]
    exact (Lexeme.leads_inTags _).length_lt hn (Lexeme.pos_lt_inTags hn) |>.trans_le hs
  | false =>
    have hn : place.rest ≠ [] := by
      intro hr
      refine h ?_
      simp only [next, Bool.false_eq_true, if_false, Lexeme.outsideTags, hr]
    exact (Lexeme.runs_outsideTags place).leads.length_lt hn (Lexeme.pos_lt_outsideTags hn)

/-- The tokens from a place on, up to the first end of the file. -/
inductive Scans : Bool → Cursor → List Token → Prop
  | last {inTags : Bool} {place : Cursor} (h : (next inTags place).1.kind = .endOfFile) :
      Scans inTags place [(next inTags place).1]
  | step {inTags : Bool} {place : Cursor} {ts : List Token}
      (h : (next inTags place).1.kind ≠ .endOfFile)
      (rest : Scans (next inTags place).2.2 (next inTags place).2.1 ts) :
      Scans inTags place ((next inTags place).1 :: ts)

/-- Scanning goes on after a token that does not end it. -/
theorem Scans.rest {inTags : Bool} {place : Cursor} {ts : List Token} (h : Scans inTags place ts)
    (hk : (next inTags place).1.kind ≠ .endOfFile) : ∃ us, ts = (next inTags place).1 :: us ∧
      Scans (next inTags place).2.2 (next inTags place).2.1 us := by
  cases h with
  | last h => exact absurd h hk
  | step _ hrest => exact ⟨_, rfl, hrest⟩

theorem Scans.head {inTags : Bool} {place : Cursor} {t : Token} {ts : List Token}
    (h : Scans inTags place (t :: ts)) : t = (next inTags place).1 := by
  cases h <;> rfl

theorem Scans.tail {inTags : Bool} {place : Cursor} {t : Token} {ts : List Token}
    (h : Scans inTags place (t :: ts)) (hne : ts ≠ []) : (next inTags place).1.kind ≠ .endOfFile ∧
      Scans (next inTags place).2.2 (next inTags place).2.1 ts := by
  cases h with
  | last => exact absurd rfl hne
  | step hk h => exact ⟨hk, h⟩

/-- More steps than characters are enough to come to the end of the file. -/
theorem scans_listFrom {n : Nat} {inTags : Bool} {place : Cursor} (h : place.rest.length < n) :
    Scans inTags place (listFrom n inTags place) := by
  induction n generalizing inTags place with
  | zero => exact absurd h (Nat.not_lt_zero _)
  | succ n ih =>
    simp only [listFrom]
    split
    · next hk => exact .last (by simpa using hk)
    · next hk =>
      have hk : (next inTags place).1.kind ≠ .endOfFile := by simpa using hk
      exact .step hk (ih (by have := next_progress hk; omega))

theorem scans_ofSource (source : List Char) : Scans false ⟨0, source⟩ (ofSource source) :=
  scans_listFrom (Nat.lt_succ_self _)

theorem Scans.length_le {inTags : Bool} {place : Cursor} {ts : List Token}
    (h : Scans inTags place ts) : ts.length ≤ place.rest.length + 1 := by
  induction h with
  | last => exact Nat.le_add_left 1 _
  | step h _ ih =>
    have := next_progress h
    simp only [List.length_cons]
    omega

end Token

end PhpAtlas
