import PhpAtlas.Token.Cursor

/-! # Trivia

Blanks, line comments, block comments and attribute groups separate tokens.
A block comment that opens with `/**` and has more than four bytes is a
documentation comment, and the last one skipped is kept.
-/

namespace PhpAtlas

/-- What skipping is inside of. -/
inductive Trivia
  | blank
  | line
  /-- A block comment that starts at the given place. -/
  | block (start : Cursor)
  /-- An attribute group with some brackets open. -/
  | group (depth : Nat)
  /-- A quoted text in an attribute group. -/
  | quoted (depth : Nat) (quote : Char)

namespace Trivia

def isGap (c : Char) : Bool := c == ' ' || c == '\t' || c == '\r' || c == '\n'

/-- The comment from `start` to `stop` if it is a documentation comment. -/
def doc? (start : Cursor) (stop : Nat) : Option String :=
  if "/**".toList.isPrefixOf start.rest && 4 < stop - start.pos then
    some (String.ofList (start.textTo stop))
  else none

/-- The state after one more character of an attribute group. -/
def inGroup (depth : Nat) (c : Char) : Trivia :=
  if c == '[' then group (depth + 1)
  else if c == ']' then (if depth ≤ 1 then blank else group (depth - 1))
  else if c == '\'' || c == '"' then quoted depth c
  else group depth

/-- The end of the trivia in front, and the last documentation comment in it. A backslash in a
quoted text takes the next position with it, also past the end. -/
def skip (doc : Option String) : Trivia → Nat → List Char → Cursor × Option String
  | blank, pos, '#' :: '[' :: cs => skip doc (group 1) (pos + 2) cs
  | blank, pos, '#' :: cs => skip doc line (pos + 1) cs
  | blank, pos, '/' :: '/' :: cs => skip doc line (pos + 2) cs
  | blank, pos, '/' :: '*' :: cs => skip doc (block ⟨pos, '/' :: '*' :: cs⟩) (pos + 2) cs
  | blank, pos, c :: cs =>
      if isGap c then skip doc blank (pos + 1) cs else (⟨pos, c :: cs⟩, doc)
  | line, pos, '?' :: '>' :: cs => (⟨pos, '?' :: '>' :: cs⟩, doc)
  | line, pos, c :: cs => skip doc (if c == '\n' then blank else line) (pos + c.utf8Size) cs
  | block start, pos, '*' :: '/' :: cs => skip (doc? start (pos + 2) <|> doc) blank (pos + 2) cs
  | block start, pos, c :: cs => skip doc (block start) (pos + c.utf8Size) cs
  | block start, pos, [] => (⟨pos, []⟩, doc? start pos <|> doc)
  | group depth, pos, c :: cs => skip doc (inGroup depth c) (pos + c.utf8Size) cs
  | quoted depth q, pos, '\\' :: c :: cs => skip doc (quoted depth q) (pos + 1 + c.utf8Size) cs
  | quoted _ _, pos, ['\\'] => (⟨pos + 2, []⟩, doc)
  | quoted depth q, pos, c :: cs =>
      skip doc (if c == q then group depth else quoted depth q) (pos + c.utf8Size) cs
  | _, pos, [] => (⟨pos, []⟩, doc)

end Trivia

end PhpAtlas
