import PhpAtlas.Proofs.Names
import PhpAtlas.Proofs.Token.Progress

/-! # Names in tokens

The scanner tells names by their backslashes: identifiers and keywords have
none, and a qualified name does not start with one.
-/

namespace PhpAtlas

/-- Names in tokens have no backslash before them. -/
structure Token.Bare (t : Token) : Prop where
  text : t.kind.isMemberName = true → Unrooted t.text
  value : t.kind = .identifier ∨ t.kind = .qualifiedName → Unrooted t.value ∧ t.value ≠ ""

/-- The kinds of names without a backslash before them. -/
def TokenKind.isBareName (kind : TokenKind) : Bool := kind.isMemberName || kind == .qualifiedName

theorem TokenKind.isBareName_of_isWord {kind : TokenKind} (h : kind.isWord = false) :
    kind.isBareName = false := by
  cases kind <;> first | rfl | cases h

namespace Lexeme

variable {start : Cursor} {l : Lexeme}

/-- A lexeme that is such a name has the text that it is made of as its value. -/
def BareAt (start : Cursor) (l : Lexeme) : Prop :=
  l.kind.isBareName = true →
    l.value = start.textTo l.after.pos ∧ l.value ≠ [] ∧ l.value.head? ≠ some '\\'

theorem bareAt_of_kind (h : l.kind.isBareName = false) : BareAt start l :=
  fun hk => Bool.noConfusion (h.symm.trans hk)

theorem nameKind_bare {text : List Char} (h : (nameKind text).isBareName = true) :
    text.head? ≠ some '\\' := by
  intro ht
  rw [nameKind, if_pos ht] at h
  cases h

theorem bareAt_name (start : Cursor) : BareAt start (name start) := by
  unfold name
  extract_lets after text
  split
  · exact bareAt_of_kind rfl
  · next ht => exact fun hk => ⟨rfl, by simpa using ht, nameKind_bare hk⟩

theorem bareAt_inTags (start : Cursor) : BareAt start (inTags start) := by
  cases h : (inTags start).kind.isWord with
  | true => exact (inTags_of_isWord h).1 ▸ bareAt_name start
  | false => exact bareAt_of_kind (TokenKind.isBareName_of_isWord h)

theorem bareAt_outsideTags (start : Cursor) : BareAt start (outsideTags start) :=
  bareAt_of_kind (TokenKind.isBareName_of_isWord (outsideTags_not_word start))

end Lexeme

namespace Token

theorem bare_next (inTags : Bool) (place : Cursor) : (next inTags place).1.Bare := by
  have hl : ∃ start l, Lexeme.BareAt start l ∧ (next inTags place).1.kind = l.kind ∧
      (next inTags place).1.text = String.ofList (start.textTo l.after.pos) ∧
      (next inTags place).1.value = String.ofList l.value := by
    cases inTags with
    | true => exact ⟨_, _, Lexeme.bareAt_inTags _, rfl, rfl, rfl⟩
    | false => exact ⟨_, _, Lexeme.bareAt_outsideTags _, rfl, rfl, rfl⟩
  obtain ⟨start, l, hb, hk, ht, hv⟩ := hl
  constructor
  · intro h
    obtain ⟨he, -, hh⟩ := hb (by rw [← hk, TokenKind.isBareName, h, Bool.true_or])
    rw [ht, ← he]
    simpa [Unrooted] using hh
  · intro h
    obtain ⟨-, hn, hh⟩ := hb (by rcases h with h | h <;> rw [← hk, h] <;> rfl)
    rw [hv]
    exact ⟨by simpa [Unrooted] using hh, by simpa using hn⟩

theorem Scans.bare {inTags : Bool} {place : Cursor} {ts : List Token}
    (h : Scans inTags place ts) : ∀ t ∈ ts, t.Bare := by
  induction h with
  | last =>
    intro t ht
    rw [List.mem_singleton.mp ht]
    exact bare_next _ _
  | step _ _ ih =>
    intro t ht
    rcases List.mem_cons.mp ht with rfl | ht
    · exact bare_next _ _
    · exact ih t ht

end Token

end PhpAtlas
