import PhpAtlas.Grammar.Block

/-! # Declarations

Namespaces, imports, classes with their members, and functions.
-/

namespace PhpAtlas

def Modifier.ofKeyword? : Keyword → Option Modifier
  | .publicKw | .varKw => some .publicMod
  | .protectedKw => some .protectedMod
  | .privateKw => some .privateMod
  | .staticKw => some .staticMod
  | .abstractKw => some .abstractMod
  | .finalKw => some .finalMod
  | .readonlyKw => some .readonlyMod
  | _ => none

/-- The modifier that a token stands for. -/
def TokenKind.modifier? (kind : TokenKind) : Option Modifier :=
  kind.keyword?.bind Modifier.ofKeyword?

namespace Grammar

/-- Modifiers are read into a set; `static::` starts an expression. -/
def modifiers : Nat → Modifiers → Parse Modifiers
  | 0, _ => outOfSteps
  | n + 1, found => do
      let t ← token
      let some modifier := t.kind.modifier? | return found
      if t.kind == .keyword .staticKw && (← kindAhead 1) == .doubleColon then return found
      advance
      modifiers n (found.insert modifier)

/-! ## Imports -/

def importAlias : Parse (Option String) := do
  if ← accept (.keyword .asKw) then
    let t ← token
    if ← accept .identifier then return some t.value
    report (.expected "alias")
    return none
  else return none

/-- The items of a group after the name that they share. -/
def groupItems (shared : String) : Nat → Parse (List Import)
  | 0 => outOfSteps
  | n + 1 => do
      let t ← token
      if !t.kind.isName then return []
      advance
      let asName ← importAlias
      let item : Import := ⟨shared ++ "\\" ++ t.value, asName⟩
      if ← accept .comma then
        let rest ← groupItems shared n
        return item :: rest
      return [item]

def importGroup (n : Nat) (shared : String) : Parse (List Import) := do
  if ← expect .openBrace "\x7b" then
    let items ← groupItems shared n
    discard (expect .closeBrace "\x7d")
    return items
  else return []

/-- What follows the name of an item: a group, which a lone backslash opens, or an alias. -/
def importTail (n : Nat) (name : String) : Parse (List Import) := do
  let next ← token
  if next.kind == .unknown && next.text == "\\" then
    advance
    importGroup n name
  else
    let asName ← importAlias
    return [⟨name, asName⟩]

def importItems (bound : Nat) : Nat → Parse (List Import)
  | 0 => outOfSteps
  | n + 1 => do
      let t ← token
      if !t.kind.isName then
        report (.expected "name")
        return []
      advance
      let items ← importTail bound (dropLeadingBackslashes t.value)
      if ← accept .comma then
        let rest ← importItems bound n
        return items ++ rest
      return items

def importForm : Parse ImportForm := do
  if ← accept (.keyword .functionKw) then return .function
  if ← accept (.keyword .constKw) then return .constant
  return .classLike

def importDeclaration (n : Nat) : Parse (Option NodeId) := do
  let t ← token
  advance
  let form ← importForm
  let items ← importItems n n
  expectSemicolon
  done (.imports form items) t.start

variable (self : Rules)

/-! ## Functions -/

/-- The declared type of a parameter, if what comes next is not its name. -/
def parameterHint (n : Nat) : Parse (Option TypeHint) := do
  let kind := (← token).kind
  if kind == .ampersand || kind == .ellipsis || kind == .variable then return none else hint n

def parameter (n : Nat) : Parse (Option NodeId) := do
  let start := (← token).start
  let promoted ← modifiers n .empty
  let type ← parameterHint n
  let byRef ← accept .ampersand
  let variadic ← accept .ellipsis
  let t ← token
  if ← accept .variable then
    let initial ← initialValue self
    done (.parameter ⟨t.value, type, initial, byRef, variadic, promoted⟩) start
  else fail "parameter name"

def parameterItems (bound : Nat) : Nat → Parse (List (Option NodeId))
  | 0 => outOfSteps
  | n + 1 => do
      if ← isAtEndOr .closeParen then return []
      let some item ← parameter self bound | return []
      if ← accept .comma then
        let rest ← parameterItems bound n
        return some item :: rest
      return [some item]

def parameterList (n : Nat) : Parse (List (Option NodeId)) := do
  if ← expect .openParen "(" then
    let items ← parameterItems self n n
    discard (expect .closeParen ")")
    return items
  else return []

/-- The name of a declaration, or a report that it is missing. -/
def declaredName (fits : TokenKind → Bool) (part : String) : Parse (Option NodeId) := do
  if let some name ← identifierOf fits then return some name
  fail part

def functionBody (n : Nat) : Parse (Option NodeId) := do
  if ← isAt .openBrace then block self n
  else
    expectSemicolon
    return none

/-- A function from its keyword to the end of its body. -/
def functionLike (n : Nat) (form : FunctionForm) (start : Nat) (modifiers : Modifiers)
    (doc : Option String) : Parse (Option NodeId) := do
  discard (expect (.keyword .functionKw) "function")
  let byRef ← accept .ampersand
  let name ← declaredName TokenKind.isMemberName "function name"
  let parameters ← parameterList self n
  let returnType ← hintAfterColon n
  let body ← functionBody self n
  done (.function form ⟨name, modifiers, byRef, parameters, returnType, body, doc⟩) start

/-- `function name` and `function &name`; anything else is a closure. -/
def isAtFunctionName : Parse Bool := do
  let next ← kindAhead 1
  let name ← if next == .ampersand then kindAhead 2 else pure next
  return name.isMemberName

def functionDeclaration (n : Nat) : Parse (Option NodeId) := do
  let t ← token
  let doc ← takeDoc
  functionLike self n .function t.start .empty doc

/-! ## Class members -/

def classNames : Nat → Parse (List (Option NodeId))
  | 0 => outOfSteps
  | n + 1 => do
      let name ← classNameRule
      if ← accept .comma then
        let rest ← classNames n
        return name :: rest
      return [name]

/-- Rules for conflicts between traits, which are not kept. -/
def conflictRules (n : Nat) : Parse Unit := do
  if ← isAt .openBrace then skipStatement n 0 else expectSemicolon

/-- `use A, B;`, also with rules for conflicts in braces. -/
def traitUse (n : Nat) : Parse (Option NodeId) := do
  let t ← token
  advance
  let traits ← classNames n
  conflictRules n
  done (.traitUse traits) t.start

/-- `case A;` or `case A = 1;`, kept as a public constant. -/
def enumCase (start : Nat) : Parse (Option NodeId) := do
  advance
  let t ← token
  if !t.kind.isMemberName then fail "case name"
  else
    advance
    let value ← initialValue self
    expectSemicolon
    done (.constant ⟨t.text, Modifiers.empty.insert .publicMod, value⟩) start

/-- The constants of one declaration; they all start where it starts. -/
def constantItems (start : Nat) (modifiers : Modifiers) : Nat → Parse (List (Option NodeId))
  | 0 => outOfSteps
  | n + 1 => do
      let t ← token
      if !t.kind.isMemberName then
        report (.expected "constant name")
        return []
      advance
      discard (expect .equals "=")
      let value ← self .expression
      let item ← node (.constant ⟨t.text, modifiers, value⟩) start
      if ← accept .comma then
        let rest ← constantItems start modifiers n
        return some item :: rest
      expectSemicolon
      return [some item]

/-- A type may stand before the first name of a constant; it is not kept. -/
def constantHint (n : Nat) : Parse Unit := do
  if (← token).kind.isMemberName && (← kindAhead 1).isMemberName then discard (hint n)

/-- `const A = 1, B = 2;` -/
def constants (n : Nat) (start : Nat) (modifiers : Modifiers) :
    Parse (List (Option NodeId)) := do
  advance
  constantHint n
  constantItems self start modifiers n

def propertyItems (start : Nat) (modifiers : Modifiers) (type : Option TypeHint)
    (doc : Option String) : Nat → Parse (List (Option NodeId))
  | 0 => outOfSteps
  | n + 1 => do
      let t ← token
      if !(← accept .variable) then
        report (.expected "property name")
        return []
      let initial ← initialValue self
      let item ← node (.property ⟨t.value, modifiers, type, initial, doc⟩) start
      if ← accept .comma then
        let rest ← propertyItems start modifiers type doc n
        return some item :: rest
      expectSemicolon
      return [some item]

/-- The declared type of a property, if what comes next is not its name. -/
def propertyHint (n : Nat) : Parse (Option TypeHint) := do
  if ← isAt .variable then return none else hint n

def properties (n : Nat) (start : Nat) (modifiers : Modifiers) (doc : Option String) :
    Parse (List (Option NodeId)) := do
  let type ← propertyHint n
  propertyItems self start modifiers type doc n

/-- The nodes that one member of a class-like adds. -/
def classMember (n : Nat) : Parse (List (Option NodeId)) := do
  let start := (← token).start
  let doc ← takeDoc
  if ← isAt (.keyword .useKw) then return ← List.singleton <$> traitUse n
  if ← isAtWord "case" then return ← List.singleton <$> enumCase self start
  let modifiers ← modifiers n .empty
  match (← token).kind with
  | .keyword .constKw => constants self n start modifiers
  | .keyword .functionKw => List.singleton <$> functionLike self n .method start modifiers doc
  | .semicolon =>
      advance
      return []
  | kind =>
      if modifiers.isEmpty && !startsHint kind then
        report (.expected "class member")
        return []
      else properties self n start modifiers doc

/-- Passes over the token before which a member started and that it has not read. -/
def passOverMember (before : Token) : Parse Unit := do
  let after ← token
  if after.start == before.start then
    report (.expected "class member")
    advance

/-- The members up to the closing brace. -/
def classMembers (bound : Nat) : Nat → Parse (List (Option NodeId))
  | 0 => outOfSteps
  | n + 1 => do
      if ← isAtEndOr .closeBrace then return []
      let before ← token
      let found ← classMember self bound
      passOverMember before
      let rest ← classMembers bound n
      return found ++ rest

/-! ## Classes -/

/-- What a token declares, if it is the keyword of a class-like. -/
def classForm? (t : Token) : Option ClassForm :=
  match t.kind with
  | .keyword .classKw => some .ordinary
  | .keyword .interfaceKw => some .interface
  | .keyword .traitKw => some .trait
  | _ => if t.isWord "enum" then some .enum else none

/-- The names after `extends`: any number for an interface, else one. -/
def parentNames (n : Nat) (form : ClassForm) : Parse (List (Option NodeId)) := do
  if ← accept (.keyword .extendsKw) then
    if form = .interface then classNames n else List.singleton <$> classNameRule
  else return []

def interfaceNames (n : Nat) (form : ClassForm) : Parse (List (Option NodeId)) := do
  if form = .ordinary ∨ form = .enum then
    if ← accept (.keyword .implementsKw) then classNames n else return []
  else return []

/-- The type behind the cases of an enum; it is not kept. -/
def backingHint (n : Nat) (form : ClassForm) : Parse Unit := do
  if form = .enum then discard (hintAfterColon n)

def classBody (n : Nat) : Parse (List (Option NodeId)) := do
  if ← expect .openBrace "\x7b" then
    let members ← classMembers self n n
    discard (expect .closeBrace "\x7d")
    return members
  else return []

def classDeclaration (n : Nat) : Parse (Option NodeId) := do
  let start := (← token).start
  let doc ← takeDoc
  let modifiers ← modifiers n .empty
  let some form := classForm? (← token)
    | report (.missing "class")
      return none
  advance
  let name ← declaredName (· == .identifier) "class name"
  backingHint n form
  let parents ← parentNames n form
  let interfaces ← interfaceNames n form
  let members ← classBody self n
  done (.classLike form ⟨name, modifiers, parents, interfaces, members, doc⟩) start

/-- `enum Name`; `enum(` is a call. -/
def isAtEnum : Parse Bool := do
  return (← isAtWord "enum") && (← kindAhead 1) == .identifier

/-! ## Namespaces -/

def namespaceName : Parse (Option String) := do
  let t ← token
  if t.kind == .identifier || t.kind == .qualifiedName then
    advance
    return some t.value
  else return none

/-- The end of the header of a namespace without braces. -/
def namespaceEnd (name : Option String) : Parse Unit := do
  if name.isNone then report (.expected "namespace name")
  expectSemicolon

/-- The statements of a namespace: in braces, or up to the next namespace. -/
def namespaceDeclaration (n : Nat) : Parse (Option NodeId) := do
  let start := (← token).start
  advance
  let name ← namespaceName
  if ← accept .openBrace then
    let statements ← statementList self .closeBrace false n
    discard (expect .closeBrace "\x7d")
    done (.namespaceBlock name statements true) start
  else
    namespaceEnd name
    let statements ← statementList self .endOfFile true n
    done (.namespaceBlock name statements false) start

end Grammar

end PhpAtlas
