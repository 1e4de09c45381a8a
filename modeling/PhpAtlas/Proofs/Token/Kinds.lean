import PhpAtlas.Token.Stream

/-! # Kinds of lexemes

Inside of tags a lexeme is a name, one of the spellings, or of one of few other
kinds. Outside of them there are only opening tags and the text before them.
-/

namespace PhpAtlas

/-- A name may start with the character, after a backslash or without one. -/
def OpensName (c : Char) : Prop := c = '\\' ∨ isNameStart c = true

namespace TokenKind

/-- No token inside of tags is of such a kind, but for the end of the file. -/
def isOutside : TokenKind → Bool
  | endOfFile | inlineHtml | openTag => true
  | _ => false

/-- The kinds of lexemes inside of tags that are neither words nor spelled out. -/
def isFreeForm : TokenKind → Bool
  | .variable | dollar | string | number | unknown => true
  | _ => false

/-- The kinds of what is read as a name, among which are the keywords. -/
def isWord (kind : TokenKind) : Bool := kind.isName || kind.isKeyword

theorem isOutside_of_isWord {kind : TokenKind} (h : kind.isWord = true) : kind.isOutside = false := by
  cases kind <;> first | rfl | cases h

theorem isOutside_of_isFreeForm {kind : TokenKind} (h : kind.isFreeForm = true) :
    kind.isOutside = false := by
  cases kind <;> first | rfl | cases h

theorem isWord_of_isFreeForm {kind : TokenKind} (h : kind.isFreeForm = true) :
    kind.isWord = false := by
  cases kind <;> first | rfl | cases h

end TokenKind

namespace Lexeme

variable {start : Cursor} {w : List Char}

/-! ## Names and spellings -/

theorem isWord_nameKind (w : List Char) : (nameKind w).isWord = true := by
  unfold nameKind
  split
  · rfl
  · split
    · rfl
    · split <;> rfl

theorem nameKind_ne {kind : TokenKind} (h : kind.isWord = false) : nameKind w ≠ kind := by
  rintro rfl
  exact Bool.noConfusion (h.symm.trans (isWord_nameKind w))

theorem kind_name (start : Cursor) :
    (name start).kind = .unknown ∨ ∃ w, (name start).kind = nameKind w := by
  unfold name
  extract_lets after text
  split
  · exact .inl rfl
  · exact .inr ⟨text, rfl⟩

/-- A spelling that is found stands at the place. -/
theorem kind_punctuation (start : Cursor) : (punctuation start).kind = .unknown ∨
    ∃ s ∈ spellings, (punctuation start).kind = s.2 ∧ s.1 <+: start.rest := by
  unfold punctuation
  split
  · exact .inl rfl
  · next text kind hs =>
    have hm := List.mem_of_find?_eq_some hs
    have hp : text <+: start.rest := by simpa using List.find?_some hs
    extract_lets after
    split
    · exact .inr ⟨_, hm, rfl, hp⟩
    · exact .inr ⟨_, hm, rfl, hp⟩
    · exact .inr ⟨_, hm, rfl, hp⟩

/-! ## Inside of tags -/

/-- What there is inside of tags before the text ends. -/
theorem inTags_cases (h : start.rest ≠ []) : (inTags start).kind.isFreeForm = true ∨
    (inTags start = name start ∧ ∃ c cs, start.rest = c :: cs ∧ OpensName c) ∨
    inTags start = punctuation start := by
  unfold inTags
  split
  · next hr => exact absurd hr h
  · unfold dollar
    split <;> exact .inl rfl
  · unfold quoted
    split <;> exact .inl rfl
  · unfold quoted
    split <;> exact .inl rfl
  · split <;> exact .inl rfl
  · next c cs _ _ _ _ hr =>
    split
    · exact .inl rfl
    · split
      · next hc => exact .inr (.inl ⟨rfl, c, cs, hr, by simpa [OpensName] using hc⟩)
      · exact .inr (.inr rfl)

theorem inTags_inside (h : start.rest ≠ []) : (inTags start).kind.isOutside = false := by
  have hspelled : ∀ s ∈ spellings, s.2.isOutside = false := by decide +kernel
  rcases inTags_cases h with hk | ⟨he, -⟩ | he
  · exact TokenKind.isOutside_of_isFreeForm hk
  · rw [he]
    rcases kind_name start with hk | ⟨w, hk⟩
    · rw [hk]
      rfl
    · exact TokenKind.isOutside_of_isWord (hk ▸ isWord_nameKind w)
  · rw [he]
    rcases kind_punctuation start with hk | ⟨s, hs, hk, -⟩
    · rw [hk]
      rfl
    · rw [hk]
      exact hspelled s hs

theorem inTags_ne_endOfFile (h : start.rest ≠ []) : (inTags start).kind ≠ .endOfFile := by
  intro he
  simpa [he, TokenKind.isOutside] using inTags_inside h

/-- Only at the start of a name there is a lexeme that is a word. -/
theorem inTags_of_isWord (h : (inTags start).kind.isWord = true) :
    inTags start = name start ∧ ∃ c cs, start.rest = c :: cs ∧ OpensName c := by
  have hspelled : ∀ s ∈ spellings, s.2.isWord = false := by decide +kernel
  have hr : start.rest ≠ [] := by
    intro hr
    rw [inTags, hr] at h
    cases h
  rcases inTags_cases hr with hk | hn | he
  · rw [TokenKind.isWord_of_isFreeForm hk] at h
    cases h
  · exact hn
  · rw [he] at h
    rcases kind_punctuation start with hk | ⟨s, hs, hk, -⟩
    · rw [hk] at h
      cases h
    · rw [hk, hspelled s hs] at h
      cases h

/-! ## Outside of tags -/

theorem outsideTags_outside (start : Cursor) : (outsideTags start).kind.isOutside = true := by
  unfold outsideTags
  extract_lets long short
  split
  · rfl
  · split
    · rfl
    · split <;> rfl

theorem outsideTags_ne {kind : TokenKind} (h : kind.isOutside = false) (start : Cursor) :
    (outsideTags start).kind ≠ kind := by
  rintro rfl
  exact Bool.noConfusion (h.symm.trans (outsideTags_outside start))

theorem outsideTags_not_word (start : Cursor) : (outsideTags start).kind.isWord = false :=
  Bool.eq_false_iff.mpr fun h => outsideTags_ne (TokenKind.isOutside_of_isWord h) start rfl

theorem outsideTags_ne_endOfFile (h : start.rest ≠ []) : (outsideTags start).kind ≠ .endOfFile := by
  unfold outsideTags
  extract_lets long short
  split
  · next hr => exact absurd hr h
  · split
    · nofun
    · split <;> nofun

end Lexeme

end PhpAtlas
