import PhpAtlas.Proofs.Token.SlicedTokens

/-! # Strings in double quotes

A string in double quotes goes up to the first quote that no backslash takes, whatever
is in it. Its value is the text with its escapes replaced, but of a character that needs
more than one byte a backslash leaves only the first.
-/

namespace PhpAtlas

open String (utf8Len)

variable {c : Char} {cs body rest : List Char}

namespace Quoted

/-- A text that can stand between double quotes: a backslash takes the next character with it, and all
quotes are taken like this. -/
inductive Body : List Char → Prop
  | nil : Body []
  | escape {c : Char} {cs : List Char} (h : Body cs) : Body ('\\' :: c :: cs)
  | plain {c : Char} {cs : List Char} (hq : c ≠ '"') (hb : c ≠ '\\') (h : Body cs) : Body (c :: cs)

/-- What a backslash and a character stand for in double quotes. -/
def meaning : Char → List Char
  | 'n' => ['\n']
  | 't' => ['\t']
  | '"' => ['"']
  | '\\' => ['\\']
  | '$' => ['$']
  | c => ['\\', c]

/-- The text that is meant: what needs no escape is kept behind its backslash. -/
def meant : List Char → List Char
  | '\\' :: c :: cs => meaning c ++ meant cs
  | c :: cs => c :: meant cs
  | [] => []

/-- The characters that a backslash takes with it. -/
def escapes : List Char → List Char
  | '\\' :: c :: cs => c :: escapes cs
  | _ :: cs => escapes cs
  | [] => []

theorem toNat_leadByte (c : Char) : (leadByte c).toNat =
    if c.toNat ≤ 0x7f then c.toNat
    else if c.toNat ≤ 0x7ff then 0xc0 + c.toNat / 0x40
    else if c.toNat ≤ 0xffff then 0xe0 + c.toNat / 0x1000
    else 0xf0 + c.toNat / 0x40000 := by
  have hc : c.toNat < 0xd800 ∨ 0xdfff < c.toNat ∧ c.toNat < 0x110000 := c.valid
  have hn {n : Nat} (h : n < 0xd800) : (Char.ofNat n).toNat = n := by
    rw [Char.ofNat, dif_pos (.inl h)]
    rfl
  have hsize : c.utf8Size = if c.toNat ≤ 0x7f then 1 else if c.toNat ≤ 0x7ff then 2
    else if c.toNat ≤ 0xffff then 3 else 4 := rfl
  rw [leadByte, hsize]
  split_ifs
  · rfl
  · exact hn (by omega)
  · exact hn (by omega)
  · exact hn (by omega)

/-- A character beyond ASCII is not its own lead byte, but for one. -/
theorem leadByte_eq_self_iff : leadByte c = c ↔ c.toNat < 0x80 ∨ c = 'Ã' := by
  have hc : c = 'Ã' ↔ c.toNat = 0xc3 := Char.toNat_inj.symm
  rw [hc, ← Char.toNat_inj, toNat_leadByte]
  split_ifs <;> omega

theorem escaped_eq_meaning_iff : escaped c = meaning c ↔ c.toNat < 0x80 ∨ c = 'Ã' := by
  unfold escaped meaning
  split <;> simp [leadByte_eq_self_iff]

theorem length_escaped (c : Char) : (escaped c).length = (meaning c).length := by
  unfold escaped meaning
  split <;> simp_all

theorem double_eq_meant_iff (h : Body body) :
    double body = meant body ↔ ∀ c ∈ escapes body, c.toNat < 0x80 ∨ c = 'Ã' := by
  induction h with
  | nil => simp [double, meant, escapes]
  | @escape c cs _ ih =>
    rw [escapes, List.forall_mem_cons, ← escaped_eq_meaning_iff, ← ih, double, meant]
    constructor
    · intro h
      exact List.append_inj h (length_escaped c)
    · rintro ⟨hc, hcs⟩
      rw [hc, hcs]
  | @plain c cs _ hb _ ih => simp [double, meant, escapes, hb, ih]

/-- The string ends with the first quote that no backslash takes. -/
theorem closing_body (h : Body body) (pos : Nat) :
    closing '"' pos (body ++ '"' :: rest) = (⟨pos + utf8Len body + 1, rest⟩, true) := by
  induction h generalizing pos with
  | nil => rfl
  | @escape c cs _ ih =>
    have hlen : utf8Len ('\\' :: c :: cs) = utf8Len cs + c.utf8Size + 1 := rfl
    simp only [List.cons_append, closing, ih, hlen]
    congr 3
    omega
  | @plain c cs hq hb _ ih =>
    have hlen : utf8Len (c :: cs) = utf8Len cs + c.utf8Size := rfl
    rw [List.cons_append, Slice.closing_cons hb, if_neg (by simpa using hq), ih, hlen]
    congr 3
    omega

end Quoted

theorem Lexeme.quoted_body (h : Quoted.Body body) (pos : Nat) :
    quoted '"' ⟨pos, body ++ '"' :: rest⟩ =
      ⟨.string, Quoted.double body, ⟨pos + utf8Len body + 1, rest⟩⟩ := by
  rw [quoted, Quoted.closing_body h]
  simp only [beq_self_eq_true, if_true, Nat.add_sub_cancel, Cursor.textTo_append]

namespace Token

/-- Inside of tags, a token that starts with a double quote is the string up to the first quote that no
backslash takes. Its value is the text that is meant exactly if no backslash takes a character beyond
ASCII with it, or only such as are their own lead bytes. -/
theorem doubleQuoted_value_iff {source body rest : List Char} {n : Nat}
    (hi : (stateAfter source n).1 = true) (hb : Quoted.Body body)
    (ht : textFrom (nth source n).start source = '"' :: body ++ '"' :: rest) :
    (nth source n).kind = .string ∧
      (nth source n).stop = (nth source n).start + utf8Len body + 2 ∧
      (nth source n).text = String.ofList ('"' :: body ++ ['"']) ∧
      (nth source n).value = String.ofList (Quoted.double body) ∧
      ((nth source n).value = String.ofList (Quoted.meant body) ↔
        ∀ c ∈ Quoted.escapes body, c.toNat < 0x80 ∨ c = 'Ã') := by
  have hin := in_stateAfter source n
  have hleads := Trivia.leads_skip none .blank (stateAfter source n).2.pos (stateAfter source n).2.rest
  have hnext := Slice.next_inTags (stateAfter source n).2
  rcases hskip : Trivia.skip none .blank (stateAfter source n).2.pos (stateAfter source n).2.rest with
    ⟨⟨pos, cs⟩, doc⟩
  rw [hskip] at hleads hnext
  have hnth : nth source n = Slice.cut ⟨pos, cs⟩ (Lexeme.inTags ⟨pos, cs⟩) doc := by
    rw [nth, hi, hnext]
  have hstart : (nth source n).start = pos := by rw [hnth]; rfl
  obtain rfl : cs = '"' :: body ++ '"' :: rest := by
    rw [← ht, hstart]
    exact (hleads.in hin).textFrom.symm
  have hlexeme : Lexeme.inTags ⟨pos, '"' :: body ++ '"' :: rest⟩ =
      ⟨.string, Quoted.double body, ⟨pos + 1 + utf8Len body + 1, rest⟩⟩ :=
    Lexeme.quoted_body hb (pos + 1)
  have htext : Cursor.textTo ⟨pos, '"' :: body ++ '"' :: rest⟩ (pos + 1 + utf8Len body + 1) =
      '"' :: body ++ ['"'] := by
    have hlen : pos + 1 + utf8Len body + 1 = pos + utf8Len ('"' :: body ++ ['"']) := by
      have hquote : ('"').utf8Size = 1 := rfl
      simp [String.utf8Len_append, String.utf8Len_cons, hquote]
      omega
    have happ : '"' :: body ++ '"' :: rest = ('"' :: body ++ ['"']) ++ rest := by simp
    rw [hlen, happ, Cursor.textTo_append]
  rw [hnth, hlexeme]
  refine ⟨rfl, ?_, congrArg String.ofList htext, rfl, ?_⟩
  · simp only [Slice.cut]
    omega
  · rw [← Quoted.double_eq_meant_iff hb]
    exact String.ofList_inj

theorem doubleQuoted_value_accent :
    let source := "<?php \"a\\t\\\"é\"".toList
    let body := ['a', '\\', 't', '\\', '"', 'é']
    (stateAfter source 1).1 = true ∧ Quoted.Body body ∧
      textFrom (nth source 1).start source = '"' :: body ++ '"' :: [] ∧
      (nth source 1).value = String.ofList ['a', '\t', '"', 'é'] := by
  intro source body
  have hi : (stateAfter source 1).1 = true := by decide +kernel
  have hb : Quoted.Body body :=
    .plain (by decide) (by decide) (.escape (.escape (.plain (by decide) (by decide) .nil)))
  have ht : textFrom (nth source 1).start source = '"' :: body ++ '"' :: [] := by decide +kernel
  have hescapes : ∀ c ∈ Quoted.escapes body, c.toNat < 0x80 ∨ c = 'Ã' := by
    have hlist : Quoted.escapes body = ['t', '"'] := rfl
    simp [hlist]
  have hvalue := (doubleQuoted_value_iff hi hb ht).2.2.2.2.mpr hescapes
  exact ⟨hi, hb, ht, hvalue⟩

/-- An escaped character beyond ASCII is replaced by the character of its lead byte. -/
theorem exists_doubleQuoted_value_ne : ∃ (source body rest : List Char) (n : Nat),
    (stateAfter source n).1 = true ∧ Quoted.Body body ∧
      textFrom (nth source n).start source = '"' :: body ++ '"' :: rest ∧
      (nth source n).value = "\\Ã" ∧ String.ofList (Quoted.meant body) = "\\é" := by
  refine ⟨"<?php \"\\é\";".toList, "\\é".toList, [';'], 1, ?_, .escape .nil, ?_, ?_, ?_⟩
  all_goals decide +kernel

end Token

end PhpAtlas
