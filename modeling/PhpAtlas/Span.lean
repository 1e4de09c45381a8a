/-! # Byte spans

A span is a half-open range of byte offsets in the UTF-8 form of a text. The
text itself is a list of characters, and a slice exists only where both ends
fall between characters.
-/

namespace PhpAtlas

structure Span where
  start : Nat
  stop : Nat
  deriving DecidableEq, Repr, Inhabited

/-- The text after its first `n` bytes, if they end between characters. -/
def dropBytes? : Nat → List Char → Option (List Char)
  | 0, cs => some cs
  | _ + 1, [] => none
  | n + 1, c :: cs => if c.utf8Size ≤ n + 1 then dropBytes? (n + 1 - c.utf8Size) cs else none

/-- Moves `n` bytes of a text onto `taken`, which is in reverse order. -/
def takeBytesOnto (taken : List Char) : Nat → List Char → Option (List Char)
  | 0, _ => some taken.reverse
  | _ + 1, [] => none
  | n + 1, c :: cs =>
      if c.utf8Size ≤ n + 1 then takeBytesOnto (c :: taken) (n + 1 - c.utf8Size) cs else none

/-- The first `n` bytes of a text, if they end between characters. -/
def takeBytes? (n : Nat) (cs : List Char) : Option (List Char) := takeBytesOnto [] n cs

/-- The first `n` bytes, or nothing when they do not end between characters. -/
def takeBytes (n : Nat) (cs : List Char) : List Char := (takeBytes? n cs).getD []

namespace Span

def length (s : Span) : Nat := s.stop - s.start

def isEmpty (s : Span) : Bool := s.stop ≤ s.start

/-- The covered text, or nothing when the span is reversed, out of bounds or cuts a character. -/
def text (s : Span) (source : List Char) : List Char :=
  if s.start ≤ s.stop then ((dropBytes? s.start source).bind (takeBytes? s.length)).getD [] else []

end Span

end PhpAtlas
