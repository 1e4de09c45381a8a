import PhpAtlas.Grammar.Hint

/-! # Expressions

Assignments stand above the conditional operator, that above the binary
operators by their levels, and those above unary operators, primary
expressions and what follows them. `n` bounds the steps of each loop.
-/

namespace PhpAtlas.Grammar

/-- The level of a binary operator; a higher one binds tighter. -/
def level? : String → Option Nat
  | "or" => some 1
  | "xor" => some 2
  | "and" => some 3
  | "??" => some 5
  | "||" => some 6
  | "&&" => some 7
  | "|" => some 8
  | "^" => some 9
  | "&" => some 10
  | "==" | "!=" | "===" | "!==" | "<>" | "<=>" => some 11
  | "<" | "<=" | ">" | ">=" => some 12
  | "." => some 13
  | "<<" | ">>" => some 14
  | "+" | "-" => some 15
  | "*" | "/" | "%" => some 16
  | "instanceof" => some 18
  | "**" => some 19
  | _ => none

def groupsToRight (operator : String) : Bool := operator == "??" || operator == "**"

/-- Operators that assign; `=` is a token of its own. -/
def updateOperators : List String :=
  ["+=", "-=", "*=", "/=", ".=", "%=", "**=", "??=", "|=", "&=", "^=", "<<=", ">>="]

/-- Operators that may stand before their operand. -/
def leadingOperators : List String := ["!", "-", "+", "~", "@", "++", "--"]

/-- The types that a cast may name. -/
def castWords : List String :=
  ["array", "binary", "bool", "boolean", "double", "float", "int", "integer", "object", "string",
    "unset"]

/-- The spelling of a token as a binary operator, with its level. -/
def binaryOperator? (t : Token) : Option (String × Nat) := do
  let text ← match t.kind with
    | .operator => some t.value
    | .bar => some "|"
    | .ampersand => some "&"
    | .identifier => some (lower t.text)
    | _ => none
  let level ← level? text
  return (text, level)

/-- A class by its name. -/
def classNameRule : Parse (Option NodeId) := do
  let t ← token
  if !t.kind.isName then fail "class name"
  else
    advance
    done (.name (.ofText t.value)) t.start

/-- The current token as an identifier, if it is of a fitting kind. -/
def identifierOf (fits : TokenKind → Bool) : Parse (Option NodeId) := do
  let t ← token
  if fits t.kind then
    advance
    done (.identifier t.text) t.start
  else return none

/-- Reads a run of tokens up to a separator or a closing bracket outside of its brackets. -/
def skipRun : Nat → Nat → Parse Unit
  | 0, _ => outOfSteps
  | n + 1, depth => do
      match (← token).kind with
      | .endOfFile => return
      | .openParen | .openBracket | .openBrace =>
          advance
          skipRun n (depth + 1)
      | .closeParen | .closeBracket | .closeBrace =>
          if depth == 0 then return
          advance
          skipRun n (depth - 1)
      | .semicolon | .comma | .closeTag =>
          if depth == 0 then return
          advance
          skipRun n depth
      | _ =>
          advance
          skipRun n depth

/-- A closure, an arrow function, a `match` or an anonymous class, kept as a span. -/
def skippedExpression (n : Nat) (start : Nat) : Parse (Option NodeId) := do
  skipRun n 0
  done .skipped start

/-- `fn(` or `fn&` and `match(`. -/
def isAtArrowOrMatch : Parse Bool := do
  let next ← kindAhead 1
  if ← isAtWord "fn" then return next == .openParen || next == .ampersand
  return (← isAtWord "match") && next == .openParen

/-- A type in parentheses. -/
def isAtCast : Parse Bool := do
  let stream := (← get).stream
  let type := stream.peek 1
  return stream.current.kind == .openParen && type.kind == .identifier
    && castWords.contains (lower type.text) && (stream.peek 2).kind == .closeParen

/-- `static function` and `static fn`. -/
def isAtStaticClosure : Parse Bool := do
  let stream := (← get).stream
  let next := stream.peek 1
  return stream.current.kind == .keyword .staticKw
    && (next.kind == .keyword .functionKw || next.isWord "fn")

variable (self : Rules)

/-- An expression in closing brackets whose opening one has been read. -/
def bracketed (closing : TokenKind) (spelling : String) : Parse (Option NodeId) := do
  let e ← self .expression
  discard (expect closing spelling)
  return e

/-- What names the variable in `$$name`, or in `$` with an expression in braces. -/
def variableTarget : Parse (Option NodeId) := do
  if ← accept .openBrace then bracketed self .closeBrace "\x7d" else self .primary

def variableVariable : Parse (Option NodeId) := do
  let t ← token
  advance
  let e ← variableTarget self
  done (.variable none e) t.start

/-- The entry whose key or value is the expression that has been read. -/
def arrayEntry (first : NodeId) : Parse (Option NodeId × Option NodeId) := do
  if ← accept .doubleArrow then
    discard (accept .ampersand)
    let value ← self .expression
    return (some first, value)
  else return (none, some first)

/-- The entries up to the closing bracket; empty slots are dropped. -/
def arrayEntries (closing : TokenKind) : Nat → Parse (List (Option NodeId × Option NodeId))
  | 0 => outOfSteps
  | n + 1 => do
      if ← isAtEndOr closing then return []
      if ← accept .comma then return ← arrayEntries closing n
      discard (accept .ellipsis)
      discard (accept .ampersand)
      let some first ← self .expression | return []
      let entry ← arrayEntry self first
      if ← accept .comma then
        let rest ← arrayEntries closing n
        return entry :: rest
      return [entry]

/-- An array whose opening bracket is the current token. -/
def arrayLiteral (n : Nat) (closing : TokenKind) (spelling : String) : Parse (Option NodeId) := do
  let t ← token
  advance
  let entries ← arrayEntries self closing n
  discard (expect closing spelling)
  done (.array entries) t.start

/-- The name of an argument is not kept. -/
def argumentName : Parse Unit := do
  if (← token).kind.isMemberName && (← kindAhead 1) == .colon then
    advance
    advance

def argumentList : Nat → Parse (List (Option NodeId))
  | 0 => outOfSteps
  | n + 1 => do
      if ← isAtEndOr .closeParen then return []
      argumentName
      discard (accept .ellipsis)
      let some argument ← self .expression | return []
      if ← accept .comma then
        let rest ← argumentList n
        return some argument :: rest
      return [some argument]

/-- Arguments in parentheses; `(...)` has none. -/
def arguments (n : Nat) : Parse (List (Option NodeId)) := do
  discard (expect .openParen "(")
  if (← isAt .ellipsis) && (← kindAhead 1) == .closeParen then
    advance
    advance
    return []
  let list ← argumentList self n
  discard (expect .closeParen ")")
  return list

/-- The class after `new` and `instanceof`. -/
def classReference : Parse (Option NodeId) := do
  match (← token).kind with
  | .variable | .dollar | .openParen | .keyword .staticKw => self .primary
  | kind => if kind.isName then classNameRule else fail "class name"

/-- Arguments if there are parentheses. -/
def optionalArguments (n : Nat) : Parse (List (Option NodeId)) := do
  if ← isAt .openParen then arguments self n else return []

def newExpression (n : Nat) : Parse (Option NodeId) := do
  let t ← token
  advance
  if ← isAt (.keyword .classKw) then skippedExpression n t.start
  else
    let some classRef ← classReference self | return none
    let list ← optionalArguments self n
    done (.newObject (some classRef) list) t.start

def primary (n : Nat) : Parse (Option NodeId) := do
  let t ← token
  match t.kind with
  | .variable =>
      advance
      done (.variable (some t.value) none) t.start
  | .dollar => variableVariable self
  | .keyword .functionKw => skippedExpression n t.start
  | .keyword .staticKw =>
      if ← isAtStaticClosure then skippedExpression n t.start
      else
        advance
        done (.name (.ofText "static")) t.start
  | .identifier =>
      if t.isWord "array" && (← kindAhead 1) == .openParen then
        advance
        arrayLiteral self n .closeParen ")"
      else if ← isAtArrowOrMatch then skippedExpression n t.start
      else classNameRule
  | .qualifiedName | .fullyQualifiedName => classNameRule
  | .string =>
      advance
      done (.literal .string t.value) t.start
  | .number =>
      advance
      done (.literal .number t.value) t.start
  | .openParen =>
      advance
      let e ← bracketed self .closeParen ")"
      done (.parenthesized e) t.start
  | .openBracket => arrayLiteral self n .closeBracket "]"
  | .keyword .newKw => newExpression self n
  | _ => fail "expression"

/-- What stands after `->` or `::`. -/
def memberName : Parse (Option NodeId) := do
  if let some name ← identifierOf TokenKind.isMemberName then return some name
  match (← token).kind with
  | .variable | .dollar => self .primary
  | .openBrace =>
      advance
      bracketed self .closeBrace "\x7d"
  | _ => fail "member name"

/-- A call or an access of the member of `target` that is read here. -/
def member (n : Nat) (start : Nat) (target : NodeId) (call : CallForm) (access : AccessForm)
    (callable nullsafe : Bool) : Parse (Option NodeId) := do
  let some name ← memberName self | return none
  if callable && (← isAt .openParen) then
    let list ← arguments self n
    done (.call call (some target) (some name) list nullsafe) start
  else done (.access access (some target) (some name) nullsafe) start

/-- What stands in the brackets of an element. -/
def elementIndex : Parse (Option NodeId) := do
  if ← isAt .closeBracket then return none else self .expression

/-- One more member, call, element or operator after an expression; `none` where there is no
more. -/
def suffix (n : Nat) (start : Nat) (e : NodeId) : Parse (Option (Option NodeId)) := do
  let t ← token
  match t.kind with
  | .arrow | .nullsafeArrow =>
      advance
      some <$> member self n start e .method .property true (t.kind == .nullsafeArrow)
  | .doubleColon =>
      advance
      let ofProperty ← isAt .variable
      let access := if ofProperty then AccessForm.property else .constant
      some <$> member self n start e .static access (!ofProperty) false
  | .openParen =>
      let list ← arguments self n
      some <$> done (.call .function (some e) none list false) start
  | .openBracket =>
      advance
      let index ← elementIndex self
      discard (expect .closeBracket "]")
      some <$> done (.access .element (some e) index false) start
  | .operator =>
      if t.value == "++" || t.value == "--" then
        advance
        some <$> done (.unary t.value (some e) false) start
      else return none
  | _ => return none

def suffixes (bound : Nat) (start : Nat) : Nat → NodeId → Parse (Option NodeId)
  | 0, _ => outOfSteps
  | n + 1, e => do
      match ← suffix self bound start e with
      | none => return some e
      | some none => return none
      | some (some e) => suffixes bound start n e

/-- The operand of an operator that has been read. -/
def unaryOf (start : Nat) (operator : String) : Parse (Option NodeId) := do
  let some operand ← self .unary | return none
  done (.unary operator (some operand) true) start

def unary (n : Nat) : Parse (Option NodeId) := do
  let t ← token
  if t.kind == .operator && leadingOperators.contains t.value then
    advance
    unaryOf self t.start t.value
  else if t.isWord "clone" || t.isWord "print" then
    advance
    unaryOf self t.start (lower t.text)
  else if ← isAtCast then
    advance
    let type ← token
    advance
    advance
    unaryOf self t.start ("(" ++ lower type.text ++ ")")
  else
    let some e ← self .primary | return none
    suffixes self n t.start n e

/-- The right operand of an operator that has the given level. -/
def rightOperand (operator : String) (own : Nat) : Parse (Option NodeId) :=
  if operator == "instanceof" then classReference self
  else self (.operand (if groupsToRight operator then own else own + 1))

/-- Binary operators of at least the level, from the left. -/
def operators (level start : Nat) : Nat → NodeId → Parse (Option NodeId)
  | 0, _ => outOfSteps
  | n + 1, left => do
      let some (operator, own) := binaryOperator? (← token) | return some left
      if own < level then return some left
      advance
      let some right ← rightOperand self operator own | return none
      let whole ← node (.binary (some left) operator (some right)) start
      operators level start n whole

def operand (n level : Nat) : Parse (Option NodeId) := do
  let start := (← token).start
  let some left ← self .unary | return none
  operators self level start n left

/-- The part of a conditional between the question mark and the colon. -/
def whenTrue : Parse (Option NodeId) := do
  if ← isAt .colon then return none else self .expression

def conditional : Parse (Option NodeId) := do
  let start := (← token).start
  let some condition ← self (.operand 0) | return none
  if ← accept .question then
    let whenTrue ← whenTrue self
    discard (expect .colon ":")
    let whenFalse ← self .expression
    done (.conditional (some condition) whenTrue whenFalse) start
  else return some condition

def assignment : Parse (Option NodeId) := do
  let start := (← token).start
  let some target ← conditional self | return none
  let t ← token
  if ← accept .equals then
    let byRef ← accept .ampersand
    let value ← self .expression
    done (.assign (some target) value byRef) start
  else if t.kind == .operator && updateOperators.contains t.value then
    advance
    let value ← self .expression
    done (.binary (some target) t.value value) start
  else return some target

def expression : Parse (Option NodeId) := nested (pure ()) (assignment self)

/-- The value that an equals sign announces. -/
def initialValue : Parse (Option NodeId) := do
  if ← accept .equals then self .expression else return none

end PhpAtlas.Grammar
