import PhpAtlas.Span

/-! # Places in a text

A cursor is a byte offset together with the text from there on. Scanning moves
it forward by recursion on the characters that are left.
-/

namespace PhpAtlas

structure Cursor where
  pos : Nat
  rest : List Char
  deriving DecidableEq, Repr

/-- A character that a name can start with: an ASCII letter, `_` or anything beyond ASCII. -/
def isNameStart (c : Char) : Bool := c.isAlpha || c == '_' || 0x80 ≤ c.toNat

/-- A character that a name can go on with. -/
def isNamePart (c : Char) : Bool := c.isAlphanum || c == '_' || 0x80 ≤ c.toNat

/-- A blank that indents a line. -/
def isIndent (c : Char) : Bool := c == ' ' || c == '\t'

namespace Cursor

/-- The text up to the byte offset `stop`. -/
def textTo (c : Cursor) (stop : Nat) : List Char := takeBytes (stop - c.pos) c.rest

/-- Past the characters in front that satisfy `p`. -/
def skipWhile (p : Char → Bool) : Nat → List Char → Cursor
  | pos, [] => ⟨pos, []⟩
  | pos, c :: cs => if p c then skipWhile p (pos + c.utf8Size) cs else ⟨pos, c :: cs⟩

/-- The first place where the text goes on with `pattern`. -/
def find? (pattern : List Char) : Nat → List Char → Option Cursor
  | _, [] => none
  | pos, c :: cs =>
      if pattern.isPrefixOf (c :: cs) then some ⟨pos, c :: cs⟩
      else find? pattern (pos + c.utf8Size) cs

/-- The end of the text. -/
def last (c : Cursor) : Cursor := skipWhile (fun _ => true) c.pos c.rest

end Cursor

end PhpAtlas
