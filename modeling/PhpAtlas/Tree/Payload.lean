import PhpAtlas.TypeHint

/-! # Constructs of a source

The payload of a tree node says which construct it is and has a slot for each
of its parts. Payloads are a functor in the type of the slots, so that a tree
can be renumbered without a case for every construct.
-/

namespace PhpAtlas

inductive Modifier
  | publicMod
  | protectedMod
  | privateMod
  | staticMod
  | abstractMod
  | finalMod
  | readonlyMod
  deriving DecidableEq, Repr

/-- A set of modifiers. -/
structure Modifiers where
  isPublic : Bool := false
  isProtected : Bool := false
  isPrivate : Bool := false
  isStatic : Bool := false
  isAbstract : Bool := false
  isFinal : Bool := false
  isReadonly : Bool := false
  deriving DecidableEq, Repr, Inhabited

namespace Modifiers

def empty : Modifiers := {}

def isEmpty (m : Modifiers) : Bool := m == empty

def insert (m : Modifiers) : Modifier → Modifiers
  | .publicMod => { m with isPublic := true }
  | .protectedMod => { m with isProtected := true }
  | .privateMod => { m with isPrivate := true }
  | .staticMod => { m with isStatic := true }
  | .abstractMod => { m with isAbstract := true }
  | .finalMod => { m with isFinal := true }
  | .readonlyMod => { m with isReadonly := true }

end Modifiers

inductive ClassForm
  | ordinary
  | interface
  | trait
  | enum
  deriving DecidableEq, Repr

inductive FunctionForm
  | function
  | method
  deriving DecidableEq, Repr

inductive CallForm
  | function
  | method
  | static
  deriving DecidableEq, Repr

inductive AccessForm
  | property
  | constant
  | element
  deriving DecidableEq, Repr

inductive LiteralForm
  | string
  | number
  | html
  deriving DecidableEq, Repr

inductive ImportForm
  | classLike
  | function
  | constant
  deriving DecidableEq, Repr

/-- One item of a `use` statement. -/
structure Import where
  name : String
  asName : Option String
  deriving DecidableEq, Repr

/-- The name that the import is visible under. -/
def Import.localName (i : Import) : String := i.asName.getD (lastSegment i.name)

variable {α β γ : Type}

structure ClassDecl (α : Type) where
  name : α
  modifiers : Modifiers
  /-- At most one for a class, any number for an interface. -/
  parents : List α
  interfaces : List α
  members : List α
  doc : Option String
  deriving Repr

structure FunctionDecl (α : Type) where
  name : α
  modifiers : Modifiers
  byRef : Bool
  parameters : List α
  returnType : Option TypeHint
  body : α
  doc : Option String
  deriving Repr

structure PropertyDecl (α : Type) where
  name : String
  modifiers : Modifiers
  type : Option TypeHint
  initial : α
  doc : Option String
  deriving Repr

structure ParameterDecl (α : Type) where
  name : String
  type : Option TypeHint
  initial : α
  byRef : Bool
  variadic : Bool
  promoted : Modifiers
  deriving Repr

structure ConstantDecl (α : Type) where
  name : String
  modifiers : Modifiers
  value : α
  deriving Repr

inductive Payload (α : Type)
  /-- A closure, an arrow function, a `match` or an anonymous class. -/
  | skipped
  | sourceFile (statements : List α)
  | namespaceBlock (home : Option String) (statements : List α) (braced : Bool)
  | imports (form : ImportForm) (items : List Import)
  | classLike (form : ClassForm) (decl : ClassDecl α)
  | traitUse (traits : List α)
  | constant (decl : ConstantDecl α)
  | property (decl : PropertyDecl α)
  | function (form : FunctionForm) (decl : FunctionDecl α)
  | parameter (decl : ParameterDecl α)
  | block (statements : List α)
  | returnStatement (value : α)
  | expressionStatement (expression : α)
  | ifStatement (condition thenBranch elseBranch : α)
  | assign (target value : α) (byRef : Bool)
  | binary (left : α) (operator : String) (right : α)
  | unary (operator : String) (operand : α) (before : Bool)
  | conditional (condition whenTrue whenFalse : α)
  | call (form : CallForm) (target member : α) (arguments : List α) (nullsafe : Bool)
  | access (form : AccessForm) (target member : α) (nullsafe : Bool)
  | newObject (classRef : α) (arguments : List α)
  | array (entries : List (α × α))
  | parenthesized (expression : α)
  | variable (text : Option String) (expression : α)
  | name (n : WrittenName)
  | identifier (text : String)
  | literal (form : LiteralForm) (value : String)
  deriving Repr

namespace Payload

/-- The slots in source order. -/
def slots : Payload α → List α
  | skipped | imports .. | name _ | identifier _ | literal .. => []
  | sourceFile statements | namespaceBlock _ statements _ | block statements => statements
  | classLike _ d => d.name :: (d.parents ++ d.interfaces ++ d.members)
  | traitUse traits => traits
  | constant d => [d.value]
  | property d => [d.initial]
  | function _ d => d.name :: (d.parameters ++ [d.body])
  | parameter d => [d.initial]
  | returnStatement e | expressionStatement e | parenthesized e => [e]
  | ifStatement c t e => [c, t, e]
  | assign target value _ => [target, value]
  | binary left _ right => [left, right]
  | unary _ operand _ => [operand]
  | conditional c t f => [c, t, f]
  | call _ target member arguments _ => target :: member :: arguments
  | access _ target member _ => [target, member]
  | newObject c arguments => c :: arguments
  | array entries => entries.flatMap fun (key, value) => [key, value]
  | .variable _ e => [e]

/-- The same construct with every slot sent through `f`. -/
def map (f : α → β) : Payload α → Payload β
  | skipped => skipped
  | sourceFile statements => sourceFile (statements.map f)
  | namespaceBlock home statements braced => namespaceBlock home (statements.map f) braced
  | imports form items => imports form items
  | classLike form d =>
      classLike form ⟨f d.name, d.modifiers, d.parents.map f, d.interfaces.map f, d.members.map f,
        d.doc⟩
  | traitUse traits => traitUse (traits.map f)
  | constant d => constant ⟨d.name, d.modifiers, f d.value⟩
  | property d => property ⟨d.name, d.modifiers, d.type, f d.initial, d.doc⟩
  | function form d =>
      function form ⟨f d.name, d.modifiers, d.byRef, d.parameters.map f, d.returnType, f d.body,
        d.doc⟩
  | parameter d => parameter ⟨d.name, d.type, f d.initial, d.byRef, d.variadic, d.promoted⟩
  | block statements => block (statements.map f)
  | returnStatement e => returnStatement (f e)
  | expressionStatement e => expressionStatement (f e)
  | ifStatement c t e => ifStatement (f c) (f t) (f e)
  | assign target value byRef => assign (f target) (f value) byRef
  | binary left operator right => binary (f left) operator (f right)
  | unary operator operand before => unary operator (f operand) before
  | conditional c t e => conditional (f c) (f t) (f e)
  | call form target member arguments nullsafe =>
      call form (f target) (f member) (arguments.map f) nullsafe
  | access form target member nullsafe => access form (f target) (f member) nullsafe
  | newObject c arguments => newObject (f c) (arguments.map f)
  | array entries => array (entries.map fun (key, value) => (f key, f value))
  | parenthesized e => parenthesized (f e)
  | .variable text e => .variable text (f e)
  | name n => name n
  | identifier text => identifier text
  | literal form value => literal form value

end Payload

/-- The kinds of tree nodes. -/
inductive NodeKind
  | identifier
  | sourceFile
  | inlineHtmlStatement
  | namespaceDeclaration
  | useDeclaration
  | classDeclaration
  | interfaceDeclaration
  | traitDeclaration
  | enumDeclaration
  | traitUse
  | classConstant
  | propertyDeclaration
  | methodDeclaration
  | functionDeclaration
  | parameter
  | block
  | returnStatement
  | expressionStatement
  | ifStatement
  | assignExpression
  | binaryExpression
  | unaryExpression
  | conditionalExpression
  | methodCall
  | staticCall
  | functionCall
  | propertyFetch
  | classConstantFetch
  | elementAccessExpression
  | newExpression
  | arrayLiteral
  | parenthesizedExpression
  | variable
  | name
  | stringLiteralExpression
  | numericLiteralExpression
  | skippedExpression
  deriving DecidableEq, Repr

def NodeKind.isClassLike : NodeKind → Bool
  | classDeclaration | interfaceDeclaration | traitDeclaration | enumDeclaration => true
  | _ => false

def Payload.kind : Payload α → NodeKind
  | skipped => .skippedExpression
  | sourceFile _ => .sourceFile
  | namespaceBlock .. => .namespaceDeclaration
  | imports .. => .useDeclaration
  | classLike .ordinary _ => .classDeclaration
  | classLike .interface _ => .interfaceDeclaration
  | classLike .trait _ => .traitDeclaration
  | classLike .enum _ => .enumDeclaration
  | traitUse _ => .traitUse
  | constant _ => .classConstant
  | property _ => .propertyDeclaration
  | function .method _ => .methodDeclaration
  | function .function _ => .functionDeclaration
  | parameter _ => .parameter
  | block _ => .block
  | returnStatement _ => .returnStatement
  | expressionStatement _ => .expressionStatement
  | ifStatement .. => .ifStatement
  | assign .. => .assignExpression
  | binary .. => .binaryExpression
  | unary .. => .unaryExpression
  | conditional .. => .conditionalExpression
  | call .method .. => .methodCall
  | call .static .. => .staticCall
  | call .function .. => .functionCall
  | access .property .. => .propertyFetch
  | access .constant .. => .classConstantFetch
  | access .element .. => .elementAccessExpression
  | newObject .. => .newExpression
  | array _ => .arrayLiteral
  | parenthesized _ => .parenthesizedExpression
  | .variable .. => .variable
  | name _ => .name
  | identifier _ => .identifier
  | literal .string _ => .stringLiteralExpression
  | literal .number _ => .numericLiteralExpression
  | literal .html _ => .inlineHtmlStatement

end PhpAtlas
