import PhpAtlas.Token.Stream
import PhpAtlas.Tree.Arena

/-! # Parser state

Rules of the grammar read a stream of tokens, append finished nodes to an
arena and report what they miss. Of several reports at one position the first
is kept. Only statements and expressions count as nesting. A rule that runs out
of the steps that it is given has no result at all.
-/

namespace PhpAtlas

/-- What the grammar finds wrong at a token. -/
inductive SyntaxFault
  /-- A fixed spelling is missing. -/
  | missing (spelling : String)
  /-- A part of a construct is missing. -/
  | expected (part : String)
  | tooDeep
  | alternativeControl
  | trailingText
  deriving DecidableEq, Repr

def SyntaxFault.message : SyntaxFault → String
  | missing spelling => "'" ++ spelling ++ "' expected"
  | expected part => part ++ " expected"
  | tooDeep => "maximum nesting depth exceeded"
  | alternativeControl => "alternative control syntax is not supported"
  | trailingText => "unexpected text after type"

structure Diagnostic where
  start : Nat
  length : Nat
  fault : SyntaxFault
  deriving DecidableEq, Repr

namespace Grammar

structure State where
  stream : TokenStream
  arena : Arena := {}
  diagnostics : Array Diagnostic := #[]
  /-- The number of statements and expressions around the current token. -/
  depth : Nat := 0
  /-- Where the last token that was read ends. -/
  readTo : Nat := 0
  lastFault : Option Nat := none
  deriving Repr

abbrev Parse (α : Type) := StateT State Option α

/-- The end of a rule that has no steps left. -/
def outOfSteps {α : Type} : Parse α := failure

/-- The deepest nesting of statements and expressions that is read. -/
def maxDepth : Nat := 256

def token : Parse Token := return (← get).stream.current

/-- The kind of the `n`-th token after the current one. -/
def kindAhead (n : Nat) : Parse TokenKind := return ((← get).stream.peek n).kind

def isAt (kind : TokenKind) : Parse Bool := return (← token).kind == kind

def isAtWord (word : String) : Parse Bool := return (← token).isWord word

def isAtEndOr (kind : TokenKind) : Parse Bool := do
  let current := (← token).kind
  return current == kind || current == .endOfFile

def advance : Parse Unit :=
  modify fun s => { s with stream := s.stream.next, readTo := s.stream.current.stop }

/-- Reads the token if it is of the kind. -/
def accept (kind : TokenKind) : Parse Bool := do
  if ← isAt kind then
    advance
    return true
  else return false

def report (fault : SyntaxFault) : Parse Unit :=
  modify fun s =>
    let t := s.stream.current
    if s.lastFault = some t.start then s
    else
      { s with
        diagnostics := s.diagnostics.push ⟨t.start, t.stop - t.start, fault⟩
        lastFault := some t.start }

def expect (kind : TokenKind) (spelling : String) : Parse Bool := do
  if ← accept kind then return true
  report (.missing spelling)
  return false

/-- A semicolon, or a closing tag in its place, which is not read. -/
def expectSemicolon : Parse Unit := do
  if ← accept .semicolon then return
  if ← isAt .closeTag then return
  report (.missing ";")

def takeDoc : Parse (Option String) := do
  let doc := (← get).stream.doc
  modify fun s => { s with stream := s.stream.dropDoc }
  return doc

/-- Appends a node that starts at `start` and ends with the last token that was read. -/
def node (payload : Payload (Option NodeId)) (start : Nat) : Parse NodeId :=
  modifyGet fun s =>
    let (i, arena) := s.arena.add payload start (max s.readTo start)
    (i, { s with arena })

/-- The same as a result of a rule. -/
def done (payload : Payload (Option NodeId)) (start : Nat) : Parse (Option NodeId) :=
  return some (← node payload start)

/-- Reports that a part is missing; the rule has no result. -/
def fail (part : String) : Parse (Option NodeId) := do
  report (.expected part)
  return none

/-- Runs a rule one level deeper; at the deepest level `recover` runs instead. -/
def nested (recover : Parse Unit) (rule : Parse (Option NodeId)) : Parse (Option NodeId) := do
  modify fun s => { s with depth := s.depth + 1 }
  if maxDepth < (← get).depth then
    report .tooDeep
    modify fun s => { s with depth := s.depth - 1 }
    recover
    return none
  else
    let result ← rule
    modify fun s => { s with depth := s.depth - 1 }
    return result

/-- The rules that call themselves through others. -/
inductive Goal
  | expression
  /-- Binary operators that bind at least as tightly as the given level. -/
  | operand (level : Nat)
  | unary
  | primary
  | statement
  | ifStatement
  deriving DecidableEq, Repr

/-- What the rules use for each other. -/
abbrev Rules := Goal → Parse (Option NodeId)

end Grammar

end PhpAtlas
