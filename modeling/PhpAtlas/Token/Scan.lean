import PhpAtlas.Token.Basic
import PhpAtlas.Token.Trivia
import PhpAtlas.Token.Quoted
import PhpAtlas.Token.Heredoc

/-! # Scanning

A source is tokenized from left to right. Outside of tags everything up to the
next opening tag is one token; inside, trivia is skipped and the longest
spelling wins.
-/

namespace PhpAtlas

/-- A token before its text is cut out of the source. -/
structure Lexeme where
  kind : TokenKind
  value : List Char
  after : Cursor

namespace Lexeme

def unknown (after : Cursor) : Lexeme := ⟨.unknown, [], after⟩

def dollar (pos : Nat) (cs : List Char) : Lexeme :=
  if cs.head?.any isNameStart then
    ⟨.variable, cs.takeWhile isNamePart, Cursor.skipWhile isNamePart (pos + 1) cs⟩
  else ⟨.dollar, [], ⟨pos + 1, cs⟩⟩

/-- The end of a name; a backslash joins two segments. -/
def nameEnd : Nat → List Char → Cursor
  | pos, '\\' :: c :: cs =>
      if isNameStart c then nameEnd (pos + 1 + c.utf8Size) cs else ⟨pos, '\\' :: c :: cs⟩
  | pos, c :: cs => if isNamePart c then nameEnd (pos + c.utf8Size) cs else ⟨pos, c :: cs⟩
  | pos, [] => ⟨pos, []⟩

def nameKind (text : List Char) : TokenKind :=
  if text.head? = some '\\' then .fullyQualifiedName
  else if text.contains '\\' then .qualifiedName
  else match Keyword.ofText? (String.ofList text) with
    | some k => .keyword k
    | none => .identifier

def name (start : Cursor) : Lexeme :=
  let after := nameEnd start.pos start.rest
  let text := start.textTo after.pos
  if text.isEmpty then unknown ⟨start.pos + 1, start.rest.drop 1⟩
  else ⟨nameKind text, text, after⟩

/-- A string whose opening quote has been read. -/
def quoted (quote : Char) (body : Cursor) : Lexeme :=
  match Quoted.closing quote body.pos body.rest with
  | (after, true) =>
      let text := body.textTo (after.pos - 1)
      ⟨.string, if quote == '"' then Quoted.double text else Quoted.single text, after⟩
  | (after, false) => unknown after

/-- Letters belong to a number, for the radix, the exponent and hexadecimal digits. -/
def numberEnd : Nat → List Char → Cursor
  | pos, c :: cs =>
      if c.isAlphanum || c == '_' || c == '.' && cs.head?.any Char.isDigit then
        numberEnd (pos + 1) cs
      else ⟨pos, c :: cs⟩
  | pos, [] => ⟨pos, []⟩

def number (start : Cursor) : Lexeme :=
  let after := numberEnd start.pos start.rest
  ⟨.number, (start.textTo after.pos).filter (· != '_'), after⟩

/-- The spellings of punctuation and operators; of two that fit the first is meant. -/
def spellings : List (List Char × TokenKind) :=
  let punctuation := [("...", TokenKind.ellipsis), ("?->", .nullsafeArrow), ("?>", .closeTag),
    ("->", .arrow), ("=>", .doubleArrow), ("::", .doubleColon)]
  let compound := ["**=", "<=>", "===", "!==", "<<=", ">>=", "??=", "==", "!=", "<>", "<=", ">=",
    "&&", "||", "??", "++", "--", "+=", "-=", "*=", "/=", ".=", "%=", "**", "<<", ">>", "|=", "&=",
    "^="]
  let single := [("(", TokenKind.openParen), (")", .closeParen), ("\x7b", .openBrace),
    ("\x7d", .closeBrace), ("[", .openBracket), ("]", .closeBracket), (";", .semicolon),
    (",", .comma), (":", .colon), ("?", .question), ("|", .bar), ("&", .ampersand), ("=", .equals)]
  let operators := ["+", "-", "*", "/", "%", "<", ">", "!", ".", "^", "~", "@"]
  let ofOperator (text : String) : String × TokenKind := (text, .operator)
  (punctuation ++ compound.map ofOperator ++ single ++ operators.map ofOperator).map
    fun (text, kind) => (text.toList, kind)

def punctuation (start : Cursor) : Lexeme :=
  match spellings.find? fun (text, _) => text.isPrefixOf start.rest with
  | none => unknown ⟨start.pos + 1, start.rest.drop 1⟩
  | some (text, kind) =>
      let after : Cursor := ⟨start.pos + text.length, start.rest.drop text.length⟩
      match kind, after.rest with
      | .closeTag, '\n' :: cs => ⟨.closeTag, [], ⟨after.pos + 1, cs⟩⟩
      | .operator, _ => ⟨.operator, text, after⟩
      | kind, _ => ⟨kind, [], after⟩

/-- The token at a place inside of tags that is not trivia. -/
def inTags (start : Cursor) : Lexeme :=
  match start.rest with
  | [] => ⟨.endOfFile, [], start⟩
  | '$' :: cs => dollar start.pos cs
  | '\'' :: cs => quoted '\'' ⟨start.pos + 1, cs⟩
  | '"' :: cs => quoted '"' ⟨start.pos + 1, cs⟩
  | '<' :: '<' :: '<' :: cs =>
      match Heredoc.read (start.pos + 3) cs with
      | .ok (text, after) => ⟨.string, text, after⟩
      | .error after => unknown after
  | c :: cs =>
      if c.isDigit || c == '.' && cs.head?.any Char.isDigit then number start
      else if c == '\\' || isNameStart c then name start
      else punctuation start

/-- The token outside of tags: an opening tag or the text before one. A short tag counts only
where no long one follows. -/
def outsideTags (start : Cursor) : Lexeme :=
  let long := "<?php".toList
  let short := "<?=".toList
  match start.rest with
  | [] => ⟨.endOfFile, [], start⟩
  | rest =>
      match Cursor.find? long start.pos rest <|> Cursor.find? short start.pos rest with
      | none => ⟨.inlineHtml, [], start.last⟩
      | some tag =>
          if start.pos < tag.pos then ⟨.inlineHtml, [], tag⟩
          else
            let length := if long.isPrefixOf rest then long.length else short.length
            ⟨.openTag, [], ⟨start.pos + length, rest.drop length⟩⟩

end Lexeme

namespace Token

/-- The next token, the place after it and whether that place is inside of tags. -/
def next (inTags : Bool) (place : Cursor) : Token × Cursor × Bool :=
  let (start, doc) := if inTags then Trivia.skip none .blank place.pos place.rest else (place, none)
  let lexeme := if inTags then Lexeme.inTags start else Lexeme.outsideTags start
  let text := start.textTo lexeme.after.pos
  let token : Token :=
    ⟨lexeme.kind, start.pos, lexeme.after.pos, String.ofList text, String.ofList lexeme.value, doc⟩
  let inside := match lexeme.kind with
    | .openTag => true
    | .closeTag => false
    | _ => inTags
  (token, lexeme.after, inside)

/-- The tokens from a place on, the last of which is the end of the file. -/
def listFrom : Nat → Bool → Cursor → List Token
  | 0, _, place => [endAt place.pos]
  | fuel + 1, inTags, place =>
      let (token, after, inside) := next inTags place
      if token.kind == .endOfFile then [token] else token :: listFrom fuel inside after

/-- The tokens of a source, each of which takes at least one character. -/
def ofSource (source : List Char) : List Token := listFrom (source.length + 1) false ⟨0, source⟩

/-- The tokens of a text that is inside of tags from its start. -/
def ofTagged (text : List Char) : List Token := listFrom (text.length + 1) true ⟨0, text⟩

end Token

end PhpAtlas
