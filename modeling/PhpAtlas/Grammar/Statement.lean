import PhpAtlas.Grammar.Declaration

/-! # Statements and sources

Declarations, returns, conditionals and expressions have nodes; other
statements are skipped as runs of tokens. The rules are tied together with a
bound on their nesting that the number of tokens provides.
-/

namespace PhpAtlas

namespace Grammar

/-- The words that open a statement without a node. -/
def skippedWords : List String :=
  ["break", "catch", "continue", "declare", "die", "do", "echo", "exit", "finally", "for",
    "foreach", "global", "goto", "include", "include_once", "print", "require", "require_once",
    "switch", "throw", "try", "unset", "while", "yield"]

/-- Skips a statement, which has no node. -/
def skippedStatement (n : Nat) : Parse (Option NodeId) := do
  skipStatement n 0
  return none

variable (self : Rules)

/-- The value that is returned, if there is one before the end of the statement. -/
def returnValue : Parse (Option NodeId) := do
  let kind := (← token).kind
  if kind == .semicolon || kind == .closeTag then return none else self .expression

def returnStatement : Parse (Option NodeId) := do
  let t ← token
  advance
  let value ← returnValue self
  expectSemicolon
  done (.returnStatement value) t.start

/-- A branch with a colon is not read as such. -/
def refuseColon : Parse Unit := do
  if ← isAt .colon then report .alternativeControl

/-- An `elseif` is a conditional in the else branch. -/
def elseBranch : Parse (Option NodeId) := do
  if ← isAt (.keyword .elseIfKw) then return ← self .ifStatement
  if ← accept (.keyword .elseKw) then self .statement else return none

def ifStatement : Parse (Option NodeId) := do
  let t ← token
  advance
  discard (expect .openParen "(")
  let condition ← self .expression
  discard (expect .closeParen ")")
  refuseColon
  let thenBranch ← self .statement
  let elseBranch ← elseBranch self
  done (.ifStatement condition thenBranch elseBranch) t.start

def expressionStatement : Parse (Option NodeId) := do
  let start := (← token).start
  let some e ← self .expression | return none
  expectSemicolon
  done (.expressionStatement (some e)) start

def statementBody (n : Nat) : Parse (Option NodeId) := do
  let t ← token
  match t.kind with
  | .openTag | .closeTag | .semicolon =>
      advance
      return none
  | .inlineHtml =>
      advance
      done (.literal .html t.text) t.start
  | .openBrace => block self n
  | .keyword .namespaceKw =>
      if ← isAtNamespace then namespaceDeclaration self n else expressionStatement self
  | .keyword .useKw => importDeclaration n
  | .keyword .classKw | .keyword .interfaceKw | .keyword .traitKw | .keyword .abstractKw
  | .keyword .finalKw | .keyword .readonlyKw => classDeclaration self n
  | .keyword .functionKw =>
      if ← isAtFunctionName then functionDeclaration self n else expressionStatement self
  | .keyword .returnKw => returnStatement self
  | .keyword .ifKw => ifStatement self
  | .keyword .constKw => skippedStatement n
  | .keyword .staticKw =>
      if (← kindAhead 1) == .doubleColon then expressionStatement self else skippedStatement n
  | .identifier =>
      if ← isAtEnum then classDeclaration self n
      else if skippedWords.contains (lower t.text) then skippedStatement n
      else expressionStatement self
  | _ => expressionStatement self

def statement (n : Nat) : Parse (Option NodeId) := nested advance (statementBody self n)

/-- The rule for a goal. -/
def rule (n : Nat) : Goal → Parse (Option NodeId)
  | .expression => expression self
  | .operand level => operand self n level
  | .unary => unary self n
  | .primary => primary self n
  | .statement => statement self n
  | .ifStatement => ifStatement self

/-- The rules with a bound on their nesting. -/
def rules : Nat → Rules
  | 0, _ => outOfSteps
  | n + 1, goal => rule (rules n) n goal

/-- A whole source; its node ends with the end of the file. -/
def sourceFile (n : Nat) : Parse NodeId := do
  advance
  let statements ← statementList (rules n) .endOfFile false n
  modify fun s => { s with readTo := s.stream.current.stop }
  node (.sourceFile statements) 0

/-- A bound for a source of some length: a token has at least one character, and between two
tokens at most six rules open. -/
def bound (length : Nat) : Nat := 8 * length + 16

end Grammar

end PhpAtlas
