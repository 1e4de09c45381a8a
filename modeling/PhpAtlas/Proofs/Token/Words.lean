import PhpAtlas.Proofs.Token.Progress

/-! # Names in texts

A name ends before the first character that cannot be a part of it, and a token
that is a name has the name as its text. Wherever a name stands before such a
character, the scanner reads it as the same token again.
-/

namespace PhpAtlas

open String (utf8Len)

variable {c : Char} {w cs rest : List Char} {pos : Nat}

/-! ## Where names end -/

/-- A name ends before the text, whatever the name is. -/
def EndsNames (rest : List Char) : Prop := ∀ c ∈ rest.head?, isNamePart c = false ∧ c ≠ '\\'

theorem OpensName.ne {d : Char} (h : OpensName c) (hd : isNameStart d = false) (hb : d ≠ '\\') :
    c ≠ d := by
  rintro rfl
  rcases h with rfl | h
  · exact hb rfl
  · exact Bool.noConfusion (hd.symm.trans h)

/-- Names start beyond the digits. -/
theorem nine_lt_of_isNameStart (h : isNameStart c = true) : 57 < c.val.toNat := by
  simp only [isNameStart, Bool.or_eq_true, beq_iff_eq] at h
  rcases h with (h | rfl) | h
  · rcases Bool.or_eq_true_iff.mp (h : (c.isUpper || c.isLower) = true) with h | h
    · have hc : 'A'.val ≤ c.val ∧ c.val ≤ 'Z'.val := of_decide_eq_true h
      exact lt_of_lt_of_le (by decide) (UInt32.le_iff_toNat_le.mp hc.1)
    · have hc : 'a'.val ≤ c.val := of_decide_eq_true (Bool.and_eq_true_iff.mp h).1
      exact lt_of_lt_of_le (by decide) (UInt32.le_iff_toNat_le.mp hc)
  · decide
  · exact lt_of_lt_of_le (by decide) (of_decide_eq_true h : 0x80 ≤ c.toNat)

theorem OpensName.isDigit (h : OpensName c) : c.isDigit = false := by
  have hc : 57 < c.val.toNat := by
    rcases h with rfl | h
    · decide
    · exact nine_lt_of_isNameStart h
  simp only [Char.isDigit, ge_iff_le, UInt32.le_iff_toNat_le, Bool.and_eq_false_iff,
    decide_eq_false_iff_not, not_le]
  exact Or.inr hc

namespace Lexeme

theorem nameEnd_backslash (h : isNameStart c = true) :
    nameEnd pos ('\\' :: c :: cs) = nameEnd (pos + 1 + c.utf8Size) cs := by
  rw [nameEnd, if_pos h]

theorem nameEnd_of_endsNames (h : EndsNames rest) : nameEnd pos rest = ⟨pos, rest⟩ := by
  cases rest with
  | nil => rfl
  | cons c cs =>
    obtain ⟨hp, hc⟩ := h c rfl
    rw [nameEnd]
    · rw [if_neg (by simp [hp])]
    · rintro _ _ rfl
      exact absurd rfl hc

/-- The text is one name from its start to its end. -/
structure IsName (w : List Char) : Prop where
  starts : ∃ c cs, w = c :: cs ∧ OpensName c
  ends : (nameEnd 0 w).rest = []

/-- What stands before a name does not matter for where it ends. -/
theorem nameEnd_append {p : Nat} (hw : (nameEnd p w).rest = []) (hr : EndsNames rest) :
    nameEnd pos (w ++ rest) = ⟨pos + utf8Len w, rest⟩ := by
  fun_induction nameEnd p w generalizing pos with
  | case1 p c cs hc ih =>
    rw [List.cons_append, List.cons_append, nameEnd_backslash hc, ih hw]
    simp [show Char.utf8Size '\\' = 1 from rfl]
    omega
  | case2 => cases hw
  | case3 p c cs _ hc ih =>
    rw [List.cons_append, nameEnd_part hc, ih hw]
    simp
    omega
  | case4 => cases hw
  | case5 => simpa using nameEnd_of_endsNames hr

/-- The text that a name takes is one name by itself. -/
theorem exists_name (pos : Nat) (cs : List Char) : ∃ w, cs = w ++ (nameEnd pos cs).rest ∧
    (nameEnd pos cs).pos = pos + utf8Len w ∧ ∀ p, (nameEnd p w).rest = [] := by
  fun_induction nameEnd pos cs with
  | case1 pos c cs hc ih =>
    obtain ⟨w, hw, hp, hn⟩ := ih
    refine ⟨'\\' :: c :: w, by simp [← hw], ?_, fun p => ?_⟩
    · rw [hp]
      simp [show Char.utf8Size '\\' = 1 from rfl]
      omega
    · rw [nameEnd_backslash hc, hn]
  | case2 => exact ⟨[], rfl, rfl, fun _ => rfl⟩
  | case3 pos c cs _ hc ih =>
    obtain ⟨w, hw, hp, hn⟩ := ih
    refine ⟨c :: w, by simp [← hw], ?_, fun p => ?_⟩
    · rw [hp]
      simp
      omega
    · rw [nameEnd_part hc, hn]
  | case4 => exact ⟨[], rfl, rfl, fun _ => rfl⟩
  | case5 => exact ⟨[], rfl, rfl, fun _ => rfl⟩

/-- A name before a text that ends it is read as a whole. -/
theorem name_append (hw : IsName w) (hr : EndsNames rest) :
    name ⟨pos, w ++ rest⟩ = ⟨nameKind w, w, ⟨pos + utf8Len w, rest⟩⟩ := by
  obtain ⟨⟨c, cs, rfl, -⟩, he⟩ := hw
  simp only [name, nameEnd_append he hr, Cursor.textTo_append]
  simp

/-! ## Names among lexemes -/

/-- A name at the end of other trivia is one lexeme. -/
theorem inTags_name (hw : IsName w) (hr : EndsNames rest) :
    inTags ⟨pos, w ++ rest⟩ = ⟨nameKind w, w, ⟨pos + utf8Len w, rest⟩⟩ := by
  rw [← name_append hw hr]
  obtain ⟨⟨c, cs, rfl, hc⟩, -⟩ := hw
  have hother {d : Char} {ds : List Char} (hd : isNameStart d = false) (hb : d ≠ '\\') :
      c :: cs ++ rest ≠ d :: ds := by
    intro h
    exact hc.ne hd hb (List.cons.inj h).1
  unfold inTags
  split
  · next h => cases h
  · next h => exact absurd h (hother (by decide) (by decide))
  · next h => exact absurd h (hother (by decide) (by decide))
  · next h => exact absurd h (hother (by decide) (by decide))
  · next h => exact absurd h (hother (by decide) (by decide))
  · next h =>
    obtain ⟨rfl, -⟩ := List.cons.inj h
    have hdot : c ≠ '.' := hc.ne (by decide) (by decide)
    rw [if_neg (by simp [hc.isDigit, hdot]), if_pos (by simpa [OpensName] using hc)]

/-- A lexeme that is a name has the text of the name, which decides on its kind. -/
theorem exists_name_of_inTags (start : Cursor) (h : (inTags start).kind.isName = true) :
    ∃ w, IsName w ∧ start.textTo (inTags start).after.pos = w ∧
      (inTags start).value = w ∧ (inTags start).kind = nameKind w := by
  obtain ⟨he, c, cs, hr, hc⟩ := inTags_of_isWord (by rw [TokenKind.isWord, h, Bool.true_or])
  obtain ⟨pos, rest⟩ := start
  obtain rfl : rest = c :: cs := hr
  obtain ⟨w, hw, hp, hn⟩ := exists_name pos (c :: cs)
  have ht : Cursor.textTo ⟨pos, c :: cs⟩ (nameEnd pos (c :: cs)).pos = w := by
    rw [hp, hw]
    simp
  rw [he] at h ⊢
  simp only [name, ht] at h ⊢
  split at h
  · cases h
  · next hne =>
    rw [if_neg hne]
    refine ⟨w, ⟨?_, hn 0⟩, ht, rfl, rfl⟩
    cases w with
    | nil => exact absurd rfl hne
    | cons d w =>
      obtain ⟨rfl, -⟩ := List.cons.inj hw
      exact ⟨_, w, rfl, hc⟩

end Lexeme

namespace Token

/-- A token that is a name is spelled as its kind says, and its value is its text. -/
structure Named (t : Token) : Prop where
  spelled : t.kind.isName = true → Lexeme.IsName t.text.toList
  kind : t.kind.isName = true → Lexeme.nameKind t.text.toList = t.kind
  value : t.kind.isName = true → t.value = t.text

theorem named_next (inTags : Bool) (place : Cursor) : (next inTags place).1.Named := by
  cases inTags with
  | true =>
    have hl (h : (next true place).1.kind.isName = true) :=
      Lexeme.exists_name_of_inTags (Trivia.skip none .blank place.pos place.rest).1 h
    constructor
    · intro h
      obtain ⟨w, hw, ht, -, -⟩ := hl h
      simpa [next, ht] using hw
    · intro h
      obtain ⟨w, -, ht, -, hk⟩ := hl h
      simpa [next, ht] using hk.symm
    · intro h
      obtain ⟨w, -, ht, hv, -⟩ := hl h
      simp [next, ht, hv]
  | false =>
    have hn : (next false place).1.kind.isName = false :=
      (Bool.or_eq_false_iff.mp (Lexeme.outsideTags_not_word place)).1
    constructor <;> simp [hn]

theorem Scans.named {inTags : Bool} {place : Cursor} {ts : List Token}
    (h : Scans inTags place ts) : ∀ t ∈ ts, t.Named := by
  induction h with
  | last => simpa using named_next _ _
  | step _ _ ih => simpa using ⟨named_next _ _, ih⟩

end Token

/-! ## Scanning what is written -/

theorem Trivia.skip_blank {doc : Option String} (hg : isGap c = false) (hh : c ≠ '#') (hs : c ≠ '/') :
    skip doc .blank pos (c :: cs) = (⟨pos, c :: cs⟩, doc) := by
  unfold skip
  split <;> simp_all

namespace Token

/-- From a place inside of tags the tokens are read, none of which is the end or a tag. -/
inductive Reads : Cursor → List Token → Cursor → Prop
  | done {place : Cursor} : Reads place [] place
  | step {place after stop : Cursor} {t : Token} {ts : List Token}
      (h : next true place = (t, after, true)) (hk : t.kind ≠ .endOfFile)
      (rest : Reads after ts stop) : Reads place (t :: ts) stop

variable {start place stop : Cursor} {ts us : List Token}

theorem Reads.trans (h : Reads start ts place) (h' : Reads place us stop) :
    Reads start (ts ++ us) stop := by
  induction h with
  | done => exact h'
  | step h hk _ ih => exact .step h hk (ih h')

theorem Reads.scans (h : Reads start ts place) (h' : Scans true place us) :
    Scans true start (ts ++ us) := by
  induction h with
  | done => exact h'
  | @step place after stop t ts h hk _ ih =>
    have hs : Scans true place ((next true place).1 :: (ts ++ us)) := by
      refine .step ?_ ?_ <;> rw [h]
      · exact hk
      · exact ih h'
    rwa [h] at hs

/-- Where the text is at its end no token is left. -/
theorem scans_nil (pos : Nat) : ∃ t, Scans true ⟨pos, []⟩ [t] ∧ t.kind = .endOfFile :=
  ⟨_, .last rfl, rfl⟩

/-- What scanning comes to does not depend on how it is run. -/
theorem Scans.unique {inTags : Bool} (h : Scans inTags place ts) (h' : Scans inTags place us) :
    ts = us := by
  induction h generalizing us with
  | last hk =>
    cases h' with
    | last => rfl
    | step hk' => exact absurd hk hk'
  | step hk _ ih =>
    cases h' with
    | last hk' => exact absurd hk' hk
    | step _ rest => rw [ih rest]

/-- At a place where no trivia starts the lexeme there is the next token. -/
theorem next_of_lexeme {l : Lexeme} (hg : Trivia.isGap c = false) (hh : c ≠ '#')
    (hs : c ≠ '/') (hl : Lexeme.inTags ⟨pos, c :: cs⟩ = l) (ho : l.kind ≠ .openTag)
    (hc : l.kind ≠ .closeTag) :
    next true ⟨pos, c :: cs⟩ =
      (⟨l.kind, pos, l.after.pos, String.ofList (Cursor.textTo ⟨pos, c :: cs⟩ l.after.pos),
        String.ofList l.value, none⟩, l.after, true) := by
  simp only [next, if_true, Trivia.skip_blank hg hh hs, hl]

/-- What is written there is one token if it is one lexeme. -/
theorem next_written {kind : TokenKind} {value : List Char} (hg : Trivia.isGap c = false)
    (hh : c ≠ '#') (hs : c ≠ '/') (ho : kind ≠ .openTag) (hc : kind ≠ .closeTag)
    (hl : Lexeme.inTags ⟨pos, c :: w ++ rest⟩ = ⟨kind, value, ⟨pos + utf8Len (c :: w), rest⟩⟩) :
    next true ⟨pos, c :: w ++ rest⟩ =
      (⟨kind, pos, pos + utf8Len (c :: w), String.ofList (c :: w), String.ofList value, none⟩,
        ⟨pos + utf8Len (c :: w), rest⟩, true) := by
  rw [List.cons_append] at hl ⊢
  rw [next_of_lexeme hg hh hs hl ho hc, ← List.cons_append, Cursor.textTo_append]

theorem reads_lexeme {l : Lexeme} (hg : Trivia.isGap c = false) (hh : c ≠ '#')
    (hs : c ≠ '/') (hl : Lexeme.inTags ⟨pos, c :: cs⟩ = l) (he : l.kind ≠ .endOfFile)
    (ho : l.kind ≠ .openTag) (hc : l.kind ≠ .closeTag) :
    ∃ t, Reads ⟨pos, c :: cs⟩ [t] l.after ∧ t.kind = l.kind ∧
      t.text = String.ofList (Cursor.textTo ⟨pos, c :: cs⟩ l.after.pos) :=
  ⟨_, .step (next_of_lexeme hg hh hs hl ho hc) he .done, rfl, rfl⟩

theorem reads_name (pos : Nat) (hw : Lexeme.IsName w) (hr : EndsNames rest) :
    ∃ t, Reads ⟨pos, w ++ rest⟩ [t] ⟨pos + utf8Len w, rest⟩ ∧
      t.kind = Lexeme.nameKind w ∧ t.text = String.ofList w := by
  have hl : Lexeme.inTags ⟨pos, w ++ rest⟩ = ⟨_, _, _⟩ := Lexeme.inTags_name hw hr
  have ht := Cursor.textTo_append pos w rest
  obtain ⟨⟨c, cs, rfl, hc⟩, -⟩ := hw
  have hgap : Trivia.isGap c = false := by
    have hne {d : Char} (hd : isNameStart d = false) (hb : d ≠ '\\') : c ≠ d := hc.ne hd hb
    simp [Trivia.isGap, hne (d := ' ') (by decide) (by decide), hne (d := '\t') (by decide) (by decide),
      hne (d := '\r') (by decide) (by decide), hne (d := '\n') (by decide) (by decide)]
  obtain ⟨t, hr, hk, htext⟩ := reads_lexeme hgap (hc.ne (by decide) (by decide))
    (hc.ne (by decide) (by decide)) hl (Lexeme.nameKind_ne (by decide))
    (Lexeme.nameKind_ne (by decide)) (Lexeme.nameKind_ne (by decide))
  exact ⟨t, hr, hk, htext.trans (congrArg _ ht)⟩

end Token

end PhpAtlas
