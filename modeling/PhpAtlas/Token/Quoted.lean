import PhpAtlas.Token.Cursor

/-! # Quoted strings

Where a quoted string ends, and the text that it stands for. In single quotes
a backslash escapes the quote and the backslash; in double quotes it also
makes newlines and tabs and protects a dollar.
-/

namespace PhpAtlas.Quoted

/-- The place after the closing quote and `true`, or where the search ran out and `false`. A
backslash takes the next character with it; in double quotes also the position past the end. -/
def closing (quote : Char) : Nat → List Char → Cursor × Bool
  | pos, '\\' :: c :: cs => closing quote (pos + 1 + c.utf8Size) cs
  | pos, ['\\'] => (⟨pos + (if quote == '"' then 2 else 1), []⟩, false)
  | pos, c :: cs =>
      if c == quote then (⟨pos + 1, cs⟩, true) else closing quote (pos + c.utf8Size) cs
  | pos, [] => (⟨pos, []⟩, false)

/-- The text of a single-quoted body. -/
def single : List Char → List Char
  | '\\' :: '\'' :: cs => '\'' :: single cs
  | '\\' :: '\\' :: cs => '\\' :: single cs
  | c :: cs => c :: single cs
  | [] => []

/-- The first byte of the UTF-8 form, read as a character. -/
def leadByte (c : Char) : Char :=
  match c.utf8Size with
  | 1 => c
  | 2 => Char.ofNat (0xC0 + c.toNat / 0x40)
  | 3 => Char.ofNat (0xE0 + c.toNat / 0x1000)
  | _ => Char.ofNat (0xF0 + c.toNat / 0x40000)

/-- What a backslash and the character after it stand for. Only the lead byte of a character that
needs no escape is kept. -/
def escaped : Char → List Char
  | 'n' => ['\n']
  | 't' => ['\t']
  | '"' => ['"']
  | '\\' => ['\\']
  | '$' => ['$']
  | c => ['\\', leadByte c]

/-- The text of a double-quoted body; interpolations are kept as written. -/
def double : List Char → List Char
  | '\\' :: c :: cs => escaped c ++ double cs
  | c :: cs => c :: double cs
  | [] => []

end PhpAtlas.Quoted
