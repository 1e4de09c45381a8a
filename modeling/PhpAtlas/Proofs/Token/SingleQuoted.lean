import PhpAtlas.Proofs.Token.SlicedTokens

/-! # Strings in single quotes

Whatever text is meant, a backslash in front of each of its backslashes and quotes
makes it a string in single quotes, and the string stands for the text again.
-/

namespace PhpAtlas

open String (utf8Len)

variable {c : Char} {cs : List Char}

/-! ## Backslashes and quotes -/

namespace Quoted

/-- A text as it is written between single quotes: with a backslash in front of each backslash and
each quote. -/
def written (s : List Char) : List Char :=
  s.flatMap fun c => if c = '\\' ∨ c = '\'' then ['\\', c] else [c]

/-- The text as a string in single quotes. -/
def literal (s : List Char) : List Char := '\'' :: written s ++ ['\'']

theorem written_of_escaped (h : c = '\\' ∨ c = '\'') : written (c :: cs) = '\\' :: c :: written cs := by
  simp [written, h]

theorem written_of_plain (h : ¬(c = '\\' ∨ c = '\'')) : written (c :: cs) = c :: written cs := by
  simp [written, h]

theorem single_cons (h : c ≠ '\\') : single (c :: cs) = c :: single cs := by
  conv_lhs => unfold single
  split <;> simp_all

/-- What is written so stands for the text itself. -/
theorem single_written (s : List Char) : single (written s) = s := by
  induction s with
  | nil => rfl
  | cons c s ih =>
    by_cases hc : c = '\\' ∨ c = '\''
    · rw [written_of_escaped hc]
      rcases hc with rfl | rfl <;> simp only [single, ih]
    · rw [written_of_plain hc, single_cons (by simp_all), ih]

/-- The string ends where the text does: no quote in it is left without a backslash, and the backslashes
in front of the last quote are taken by pairs. -/
theorem closing_written (s rest : List Char) (pos : Nat) :
    closing '\'' pos (written s ++ '\'' :: rest) = (⟨pos + utf8Len (written s) + 1, rest⟩, true) := by
  induction s generalizing pos with
  | nil => rfl
  | cons c s ih =>
    by_cases hc : c = '\\' ∨ c = '\''
    · have hlen : utf8Len ('\\' :: c :: written s) = utf8Len (written s) + c.utf8Size + 1 := rfl
      rw [written_of_escaped hc, hlen]
      simp only [List.cons_append, closing, ih]
      congr 3
      omega
    · have hlen : utf8Len (c :: written s) = utf8Len (written s) + c.utf8Size := rfl
      rw [not_or] at hc
      rw [written_of_plain (by simp [hc]), hlen, List.cons_append, Slice.closing_cons hc.1,
        if_neg (by simpa using hc.2), ih]
      congr 3
      omega

end Quoted

theorem Lexeme.quoted_written (s rest : List Char) (pos : Nat) :
    quoted '\'' ⟨pos, Quoted.written s ++ '\'' :: rest⟩ =
      ⟨.string, s, ⟨pos + utf8Len (Quoted.written s) + 1, rest⟩⟩ := by
  rw [quoted, Quoted.closing_written]
  simp only [Nat.add_sub_cancel, Cursor.textTo_append, Quoted.single_written]
  rfl

namespace Token

/-- Inside of tags, a text that is written between single quotes is one string with the text as its value,
whatever the text is and whatever comes behind the closing quote. -/
theorem next_singleQuoted (s rest : List Char) (pos : Nat) :
    next true ⟨pos, Quoted.literal s ++ rest⟩ =
      (⟨.string, pos, pos + utf8Len (Quoted.literal s), String.ofList (Quoted.literal s),
        String.ofList s, none⟩, ⟨pos + utf8Len (Quoted.literal s), rest⟩, true) := by
  have hlen : utf8Len (Quoted.literal s) = utf8Len (Quoted.written s) + 2 := by
    have hquote : ('\'').utf8Size = 1 := rfl
    simp [Quoted.literal, String.utf8Len_append, String.utf8Len_cons, hquote]
  have hl : Lexeme.inTags ⟨pos, Quoted.literal s ++ rest⟩ =
      ⟨.string, s, ⟨pos + utf8Len (Quoted.literal s), rest⟩⟩ := by
    have hafter : pos + 1 + utf8Len (Quoted.written s) + 1 = pos + utf8Len (Quoted.literal s) := by
      omega
    rw [← hafter, ← Lexeme.quoted_written]
    simp [Quoted.literal, Lexeme.inTags]
  exact next_written (by decide) (by decide) (by decide) (by decide) (by decide) hl

/-- A backslash, a quote and a character of two bytes. -/
example : (next true ⟨0, "'\\\\\\'é';".toList⟩).1.value = "\\'é" := by decide +kernel

end Token

end PhpAtlas
