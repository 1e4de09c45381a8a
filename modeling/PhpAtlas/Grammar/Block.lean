import PhpAtlas.Grammar.Expression

/-! # Lists of statements

Statements up to a closing token. A statement that reads nothing is reported
and its token is passed over, so that the list always goes on.
-/

namespace PhpAtlas.Grammar

/-- `namespace A;`, `namespace A` with a block, or `namespace` with a block. -/
def isAtNamespace : Parse Bool := do
  let next ← kindAhead 1
  return (← isAt (.keyword .namespaceKw))
    && (next == .identifier || next == .qualifiedName || next == .openBrace)

/-- The words that go on with a skipped statement after its block. -/
def continuationWords : List String := ["catch", "finally", "while"]

/-- Whether a skipped statement goes on after a block that has been read. -/
def continues (t : Token) : Bool :=
  t.kind == .keyword .elseKw || t.kind == .keyword .elseIfKw || continuationWords.any t.isWord

/-- Reads a statement as a run of tokens, up to a semicolon or the end of its last block. -/
def skipStatement : Nat → Nat → Parse Unit
  | 0, _ => outOfSteps
  | n + 1, depth => do
      match (← token).kind with
      | .endOfFile => return
      | .openParen | .openBracket | .openBrace =>
          advance
          skipStatement n (depth + 1)
      | .closeParen | .closeBracket =>
          advance
          skipStatement n (depth - 1)
      | .closeBrace =>
          if depth == 0 then return
          advance
          let after ← token
          if depth == 1 && !continues after then return
          skipStatement n (depth - 1)
      | .semicolon =>
          advance
          if depth == 0 then return
          skipStatement n depth
      | .closeTag =>
          if depth == 0 then return
          advance
          skipStatement n depth
      | _ =>
          advance
          skipStatement n depth

variable (self : Rules)

/-- Passes over the token before which a statement started and that it has not read. -/
def passOver (before : Token) : Parse Unit := do
  let after ← token
  if after.start == before.start && after.kind == before.kind then
    report (.expected "declaration or statement")
    advance

/-- Statements up to `closing`, which is not read, or up to the next namespace. -/
def statementList (closing : TokenKind) (stopAtNamespace : Bool) :
    Nat → Parse (List (Option NodeId))
  | 0 => outOfSteps
  | n + 1 => do
      if ← isAtEndOr closing then return []
      if stopAtNamespace && (← isAtNamespace) then return []
      let before ← token
      let statement ← self .statement
      passOver before
      let rest ← statementList closing stopAtNamespace n
      return if statement.isSome then statement :: rest else rest

def block (n : Nat) : Parse (Option NodeId) := do
  let t ← token
  discard (expect .openBrace "\x7b")
  let statements ← statementList self .closeBrace false n
  discard (expect .closeBrace "\x7d")
  done (.block statements) t.start

end PhpAtlas.Grammar
