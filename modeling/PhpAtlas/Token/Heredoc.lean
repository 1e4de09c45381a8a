import PhpAtlas.Token.Cursor

/-! # Heredocs

`<<<LABEL`, `<<<"LABEL"` or `<<<'LABEL'` opens a text of whole lines that ends
before the first line whose indented start is the label. The indentation of
that line is taken off every line of the body.
-/

namespace PhpAtlas.Heredoc

/-- Whether a line starts with the label after its indentation. -/
def closes (label line : List Char) : Bool :=
  let text := line.dropWhile isIndent
  label.isPrefixOf text && !(text.drop label.length).head?.any isNamePart

/-- The start of the closing line; `fresh` says whether a line starts here. -/
def closingLine (label : List Char) : Bool → Nat → List Char → Option Cursor
  | _, _, [] => none
  | fresh, pos, c :: cs =>
      if fresh && closes label (c :: cs) then some ⟨pos, c :: cs⟩
      else closingLine label (c == '\n') (pos + c.utf8Size) cs

/-- Takes up to `indent` blanks off every line, and up to `left` off the first. -/
def outdent (indent : Nat) : Nat → List Char → List Char
  | _, [] => []
  | left, c :: cs =>
      if c == '\n' then c :: outdent indent indent cs
      else if 0 < left && isIndent c then outdent indent (left - 1) cs
      else c :: outdent indent 0 cs

/-- The body without the newline before the closing line. -/
def body (start : Cursor) (closing : Nat) : List Char :=
  ((start.textTo (closing - 1)).reverse.dropWhile (· == '\r')).reverse

/-- The quote in front of a label, and the place after it. -/
def openQuote (opened : Cursor) : Option Char × Cursor :=
  match opened.rest with
  | '\'' :: cs => (some '\'', ⟨opened.pos + 1, cs⟩)
  | '"' :: cs => (some '"', ⟨opened.pos + 1, cs⟩)
  | _ => (none, opened)

/-- The label with the place after it and its quote, or where the quote is missing. -/
def label (quote : Option Char) (start : Cursor) : Except Cursor (List Char × Cursor) :=
  let label := start.rest.takeWhile isNamePart
  let stop := Cursor.skipWhile isNamePart start.pos start.rest
  match quote with
  | none => .ok (label, stop)
  | some q =>
      if stop.rest.head? = some q then .ok (label, ⟨stop.pos + 1, stop.rest.drop 1⟩)
      else .error stop

/-- The label with the place after the header, or where a malformed header breaks off. -/
def header (pos : Nat) (cs : List Char) : Except Cursor (List Char × Cursor) :=
  let (quote, start) := openQuote (Cursor.skipWhile isIndent pos cs)
  if start.rest.head?.any isNameStart then label quote start else .error ⟨pos, cs⟩

/-- The text after a header, and the place after the closing label, or where the text ends without
one. -/
def text (label : List Char) (headerEnd : Cursor) : Except Cursor (List Char × Cursor) :=
  let newline := Cursor.skipWhile (· != '\n') headerEnd.pos headerEnd.rest
  let start : Cursor := ⟨newline.pos + 1, newline.rest.drop 1⟩
  if newline.rest.isEmpty then .error newline
  else
    match closingLine label true start.pos start.rest with
    | none => .error start.last
    | some line =>
        let indented := Cursor.skipWhile isIndent line.pos line.rest
        let indent := indented.pos - line.pos
        let text := outdent indent indent (body start line.pos)
        .ok (text, Cursor.skipWhile isNamePart indented.pos indented.rest)

/-- Reads on after `<<<`: the text and the place after the closing label, or where an unfinished
heredoc breaks off. -/
def read (pos : Nat) (cs : List Char) : Except Cursor (List Char × Cursor) :=
  match header pos cs with
  | .ok (label, headerEnd) => text label headerEnd
  | .error after => .error after

end PhpAtlas.Heredoc
