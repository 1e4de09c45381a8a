import PhpAtlas.Grammar.State

/-! # Type hints

`?T`, `A|B`, `A&B` or `(A&B)|C` over keywords and names. An ampersand joins
types only before another name, since it also marks parameters by reference.
-/

namespace PhpAtlas

namespace Grammar

/-- The type that one token stands for. -/
def hintOfToken? (t : Token) : Option TypeHint :=
  match t.kind with
  | .keyword .staticKw => some (.keyword "static")
  | .identifier =>
      some (if isTypeKeyword t.text then .keywordOf t.text else .name (.ofText t.value))
  | .qualifiedName | .fullyQualifiedName => some (.name (.ofText t.value))
  | _ => none

def singleHint : Parse (Option TypeHint) := do
  match hintOfToken? (← token) with
  | some hint =>
      advance
      return some hint
  | none =>
      report (.expected "type")
      return none

/-- The types that further ampersands join; `n` bounds their number. -/
def joinedHints : Nat → Parse (Option (List TypeHint))
  | 0 => outOfSteps
  | n + 1 => do
      let next ← kindAhead 1
      if (← isAt .ampersand) && (next.isName || next == .keyword .staticKw) then
        advance
        let some hint ← singleHint | return none
        let rest ← joinedHints n
        return rest.map (hint :: ·)
      else return some []

def intersectionHint (n : Nat) : Parse (Option TypeHint) := do
  let some first ← singleHint | return none
  let some rest ← joinedHints n | return none
  return some (if rest.isEmpty then first else .intersection (first :: rest))

/-- An intersection, which may stand in parentheses. -/
def memberHint (n : Nat) : Parse (Option TypeHint) := do
  if ← accept .openParen then
    let some inner ← intersectionHint n | return none
    discard (expect .closeParen ")")
    return some inner
  else intersectionHint n

/-- The types that further bars join. -/
def unitedHints (bound : Nat) : Nat → Parse (Option (List TypeHint))
  | 0 => outOfSteps
  | n + 1 => do
      if ← accept .bar then
        let some hint ← memberHint bound | return none
        let rest ← unitedHints bound n
        return rest.map (hint :: ·)
      else return some []

/-- A type; `n` bounds the number of its parts. -/
def hint (n : Nat) : Parse (Option TypeHint) := do
  if ← accept .question then
    let inner ← singleHint
    return inner.map .nullable
  let some first ← memberHint n | return none
  let some rest ← unitedHints n n | return none
  return some (if rest.isEmpty then first else .union (first :: rest))

/-- A type that a colon announces. -/
def hintAfterColon (n : Nat) : Parse (Option TypeHint) := do
  if ← accept .colon then hint n else return none

def startsHint (kind : TokenKind) : Bool :=
  kind.isName || kind == .question || kind == .keyword .staticKw || kind == .openParen

/-- The rule for a text that is one type and nothing else. -/
def loneHint (n : Nat) : Parse (Option TypeHint) := do
  advance
  let some result ← hint n | return none
  if ← isAt .endOfFile then return some result
  report .trailingText
  return some result

end Grammar

open Grammar in
/-- The type that a text declares, or what is wrong with the text. -/
def TypeHint.parse (text : List Char) : Except (List Diagnostic) TypeHint :=
  let tokens := Token.ofTagged text
  match (loneHint tokens.length).run { stream := .ofTokens tokens } with
  | some (some hint, s) =>
      if s.diagnostics.isEmpty then .ok hint else .error s.diagnostics.toList
  | some (none, s) => .error s.diagnostics.toList
  | none => .error []

end PhpAtlas
