import PhpAtlas.Proofs.Passing

/-! # Rules made of rules

What rules inherit from their parts, and what adding a node has, holds of all rules
that take no comment; what taking a comment has, too, holds of all rules. Class-likes,
functions, blocks, conditional statements, parentheses, binary operators and assignments
are left to the property, which can say more of them than of other nodes.
-/

namespace PhpAtlas

/-- A binary operator or an assignment. -/
def Payload.isOperation {α : Type} : Payload α → Bool
  | .binary .. | .assign .. => true
  | _ => false

/-- The construct is none of those that a property may treat in its own way. -/
def Payload.isSimple {α : Type} : Payload α → Bool
  | .classLike .. | .function .. | .block _ | .ifStatement .. | .parenthesized _ | .binary ..
  | .assign .. => false
  | _ => true

/-- The construct is simple, and no comment documents it. -/
def Payload.isElementary {α : Type} : Payload α → Bool
  | .property _ => false
  | payload => payload.isSimple

theorem Payload.isSimple_of_isElementary {α : Type} {payload : Payload α}
    (h : payload.isElementary = true) : payload.isSimple = true := by
  cases payload <;> first | rfl | cases h

namespace Grammar

variable {α β : Type} {kind : TokenKind} {spelling part : String} {n start : Nat}
variable {payload : Payload (Option NodeId)} {e : NodeId}

/-- An inherited property that adding an elementary node has. -/
structure Growing (P : (α : Type) → Parse α → Prop) : Prop extends Inherited P where
  node {payload : Payload (Option NodeId)} {start : Nat} (h : payload.isElementary = true) :
    P NodeId (node payload start)

/-- One that taking a comment and adding a property have, too. -/
structure Composed (P : (α : Type) → Parse α → Prop) : Prop extends Growing P where
  takeDoc : P (Option String) takeDoc
  property (d : PropertyDecl (Option NodeId)) (start : Nat) :
    P NodeId (Grammar.node (.property d) start)

/-- A parenthesized expression from its opening bracket on. -/
def parentheses (self : Rules) (start : Nat) : Parse (Option NodeId) := do
  advance
  let e ← bracketed self .closeParen ")"
  done (.parenthesized e) start

/-- A function from its keyword to the end of its body. -/
def functionDecl (self : Rules) (n : Nat) (found : Modifiers) (doc : Option String) :
    Parse (FunctionDecl (Option NodeId)) := do
  discard (expect (.keyword .functionKw) "function")
  let byRef ← accept .ampersand
  let name ← declaredName TokenKind.isMemberName "function name"
  let parameters ← parameterList self n
  let returnType ← hintAfterColon n
  let body ← functionBody self n
  return ⟨name, found, byRef, parameters, returnType, body, doc⟩

theorem functionLike_eq_decl {self : Rules} {form : FunctionForm} {found : Modifiers}
    {doc : Option String} : functionLike self n form start found doc =
      (functionDecl self n found doc >>= fun d => done (.function form d) start) := by
  simp only [functionLike, functionDecl, bind_assoc, pure_bind]

/-- The property holds of what expressions are made of. -/
structure OfExpressions (P : (α : Type) → Parse α → Prop) (rules : Rules) : Prop where
  expression : P (Option NodeId) (rules .expression)
  operand (level : Nat) : P (Option NodeId) (rules (.operand level))
  unary : P (Option NodeId) (rules .unary)
  primary : P (Option NodeId) (rules .primary)
  parentheses (start : Nat) : P (Option NodeId) (Grammar.parentheses rules start)

/-- The same for statements. -/
structure OfStatements (P : (α : Type) → Parse α → Prop) (rules : Rules) (n : Nat) : Prop
    extends OfExpressions P rules where
  statement : P (Option NodeId) (rules .statement)
  block : P (Option NodeId) (block rules n)
  ifStatement : P (Option NodeId) (ifStatement rules)
  function : P (Option NodeId) (functionDeclaration rules n)
  classDeclaration : P (Option NodeId) (classDeclaration rules n)

namespace Growing

variable {P : (α : Type) → Parse α → Prop} {self : Rules} (h : Growing P)

include h

theorem done (hs : payload.isElementary = true) : P (Option NodeId) (done payload start) :=
  h.bind (h.node hs) fun _ => h.pure _

theorem fail : P (Option NodeId) (fail part) := h.bind (h.report nofun) fun _ => h.pure none

/-! ## Expressions -/

theorem classNameRule : P (Option NodeId) classNameRule :=
  h.looking looks_token fun _ => Inherited.ite h.fail (h.bind h.advance fun _ => h.done rfl)

theorem identifierOf {fits : TokenKind → Bool} : P (Option NodeId) (identifierOf fits) :=
  h.looking looks_token fun _ => Inherited.ite (h.bind h.advance fun _ => h.done rfl) (h.pure none)

theorem skippedExpression : P (Option NodeId) (skippedExpression n start) :=
  h.bind h.skipRun fun _ => h.done rfl

theorem parentheses (he : P (Option NodeId) (self .expression))
    (hn : ∀ e, P (Option NodeId) (Grammar.done (.parenthesized e) start)) :
    P (Option NodeId) (parentheses self start) := by
  refine h.bind h.advance fun _ => h.bind (h.bind he fun _ => ?_) hn
  exact h.bind (h.discard h.expect) fun _ => h.pure _

section

variable (hs : OfExpressions P self)

include hs

theorem bracketed : P (Option NodeId) (bracketed self kind spelling) :=
  h.bind hs.expression fun _ => h.bind (h.discard h.expect) fun _ => h.pure _

theorem variableTarget : P (Option NodeId) (variableTarget self) :=
  h.bind h.accept fun _ => Inherited.ite (h.bracketed hs) hs.primary

theorem variableVariable : P (Option NodeId) (variableVariable self) := by
  refine h.looking looks_token fun _ => h.bind h.advance fun _ => ?_
  apply h.bind (h.variableTarget hs)
  intro e
  exact h.done rfl

theorem arrayEntry : P (Option NodeId × Option NodeId) (arrayEntry self e) := by
  refine h.bind h.accept fun _ => Inherited.ite ?_ (h.pure _)
  exact h.bind (h.discard h.accept) fun _ => h.bind hs.expression fun _ => h.pure _

theorem arrayEntries :
    P (List (Option NodeId × Option NodeId)) (arrayEntries self kind n) := by
  induction n with
  | zero => exact h.outOfSteps
  | succ n ih =>
    refine h.looking (looks_isAtEndOr _) fun _ => Inherited.ite (h.pure _) ?_
    refine h.bind h.accept fun _ => Inherited.ite ih (h.bind (h.discard h.accept) fun _ => ?_)
    refine h.bind (h.discard h.accept) fun _ => h.bind hs.expression ?_
    rintro (_ | first)
    · exact h.pure _
    · refine h.bind (h.arrayEntry hs) fun _ => h.bind h.accept fun _ => Inherited.ite ?_ (h.pure _)
      exact h.bind ih fun _ => h.pure _

theorem arrayLiteral : P (Option NodeId) (arrayLiteral self n kind spelling) := by
  refine h.looking looks_token fun _ => h.bind h.advance fun _ => ?_
  exact h.bind (h.arrayEntries hs) fun _ => h.bind (h.discard h.expect) fun _ => h.done rfl

theorem argumentList : P (List (Option NodeId)) (argumentList self n) := by
  induction n with
  | zero => exact h.outOfSteps
  | succ n ih =>
    refine h.looking (looks_isAtEndOr _) fun _ => Inherited.ite (h.pure _) ?_
    refine h.bind h.argumentName fun _ => h.bind (h.discard h.accept) fun _ => ?_
    apply h.bind hs.expression
    rintro (_ | argument)
    · exact h.pure _
    · exact h.bind h.accept fun _ => Inherited.ite (h.bind ih fun _ => h.pure _) (h.pure _)

theorem arguments : P (List (Option NodeId)) (arguments self n) := by
  refine h.bind (h.discard h.expect) fun _ => h.looking (looks_isAt _) fun _ => ?_
  refine h.looking (looks_kindAhead 1) fun _ => Inherited.ite ?_ ?_
  · exact h.bind h.advance fun _ => h.bind h.advance fun _ => h.pure _
  · exact h.bind (h.argumentList hs) fun _ => h.bind (h.discard h.expect) fun _ => h.pure _

theorem classReference : P (Option NodeId) (classReference self) := by
  apply h.looking looks_token
  intro t
  split
  · exact hs.primary
  · exact hs.primary
  · exact hs.primary
  · exact hs.primary
  · exact Inherited.ite h.classNameRule h.fail

theorem optionalArguments : P (List (Option NodeId)) (optionalArguments self n) :=
  h.looking (looks_isAt _) fun _ => Inherited.ite (h.arguments hs) (h.pure _)

theorem newExpression : P (Option NodeId) (newExpression self n) := by
  refine h.looking looks_token fun _ => h.bind h.advance fun _ => ?_
  refine h.looking (looks_isAt _) fun _ => Inherited.ite h.skippedExpression ?_
  apply h.bind (h.classReference hs)
  rintro (_ | classRef)
  · exact h.pure none
  · exact h.bind (h.optionalArguments hs) fun _ => h.done rfl

theorem primaryRule : P (Option NodeId) (Grammar.primary self n) := by
  apply h.looking looks_token
  intro t
  split
  · exact h.bind h.advance fun _ => h.done rfl
  · exact h.variableVariable hs
  · exact h.skippedExpression
  · refine h.looking looks_isAtStaticClosure fun _ => Inherited.ite h.skippedExpression ?_
    exact h.bind h.advance fun _ => h.done rfl
  · obtain ⟨g, hg⟩ := looks_isAtArrowOrMatch
    refine h.looking (looks_kindAhead 1) fun _ => Inherited.ite ?_ ?_
    · exact h.bind h.advance fun _ => h.arrayLiteral hs
    · exact h.looking hg fun _ => Inherited.ite h.skippedExpression h.classNameRule
  · exact h.classNameRule
  · exact h.classNameRule
  · exact h.bind h.advance fun _ => h.done rfl
  · exact h.bind h.advance fun _ => h.done rfl
  · exact hs.parentheses t.start
  · exact h.arrayLiteral hs
  · exact h.newExpression hs
  · exact h.fail

theorem memberName : P (Option NodeId) (memberName self) := by
  apply h.bind h.identifierOf
  rintro (_ | name)
  · apply h.looking looks_token
    intro t
    split
    · exact hs.primary
    · exact hs.primary
    · exact h.bind h.advance fun _ => h.bracketed hs
    · exact h.fail
  · exact h.pure _

theorem member {call : CallForm} {access : AccessForm} {callable nullsafe : Bool} :
    P (Option NodeId) (member self n start e call access callable nullsafe) := by
  apply h.bind (h.memberName hs)
  rintro (_ | name)
  · exact h.pure none
  · refine h.looking (looks_isAt _) fun _ => Inherited.ite ?_ (h.done rfl)
    exact h.bind (h.arguments hs) fun _ => h.done rfl

theorem elementIndex : P (Option NodeId) (elementIndex self) :=
  h.looking (looks_isAt _) fun _ => Inherited.ite (h.pure none) hs.expression

theorem suffix : P (Option (Option NodeId)) (suffix self n start e) := by
  apply h.looking looks_token
  intro t
  split
  · exact h.bind h.advance fun _ => h.map (h.member hs)
  · exact h.bind h.advance fun _ => h.map (h.member hs)
  · exact h.bind h.advance fun _ => h.looking (looks_isAt _) fun _ => h.map (h.member hs)
  · exact h.bind (h.arguments hs) fun _ => h.map (h.done rfl)
  · refine h.bind h.advance fun _ => h.bind (h.elementIndex hs) fun _ => ?_
    exact h.bind (h.discard h.expect) fun _ => h.map (h.done rfl)
  · exact Inherited.ite (h.bind h.advance fun _ => h.map (h.done rfl)) (h.pure _)
  · exact h.pure _

theorem suffixes {bound : Nat} : P (Option NodeId) (suffixes self bound start n e) := by
  induction n generalizing e with
  | zero => exact h.outOfSteps
  | succ n ih =>
    apply h.bind (h.suffix hs)
    rintro (_ | _ | e')
    · exact h.pure _
    · exact h.pure none
    · exact ih

theorem unaryOf {operator : String} : P (Option NodeId) (unaryOf self start operator) := by
  apply h.bind hs.unary
  rintro (_ | operand)
  · exact h.pure none
  · exact h.done rfl

theorem unaryRule : P (Option NodeId) (Grammar.unary self n) := by
  apply h.looking looks_token
  intro t
  refine Inherited.ite (h.bind h.advance fun _ => h.unaryOf hs) ?_
  refine Inherited.ite (h.bind h.advance fun _ => h.unaryOf hs) ?_
  refine h.looking looks_isAtCast fun _ => Inherited.ite ?_ ?_
  · refine h.bind h.advance fun _ => h.looking looks_token fun _ => h.bind h.advance fun _ => ?_
    exact h.bind h.advance fun _ => h.unaryOf hs
  · apply h.bind hs.primary
    rintro (_ | e)
    · exact h.pure none
    · exact h.suffixes hs

section

variable (hn : ∀ {payload : Payload (Option NodeId)} (start : Nat), payload.isOperation = true →
  P NodeId (Grammar.node payload start))

include hn

theorem operators {level : Nat} : P (Option NodeId) (operators self level start n e) := by
  induction n generalizing e with
  | zero => exact h.outOfSteps
  | succ n ih =>
    apply h.looking looks_token
    intro t
    split
    · refine Inherited.ite (h.pure _) (h.bind h.advance fun _ => ?_)
      apply h.bind (Inherited.ite (h.classReference hs) (hs.operand _))
      rintro (_ | right)
      · exact h.pure none
      · exact h.bind (hn _ rfl) fun _ => ih
    · exact h.pure _

theorem operandRule {level : Nat} : P (Option NodeId) (Grammar.operand self n level) := by
  apply h.looking looks_token
  intro t
  apply h.bind hs.unary
  rintro (_ | left)
  · exact h.pure none
  · exact h.operators hs hn

end

theorem whenTrue : P (Option NodeId) (whenTrue self) :=
  h.looking (looks_isAt _) fun _ => Inherited.ite (h.pure none) hs.expression

theorem conditional : P (Option NodeId) (conditional self) := by
  apply h.looking looks_token
  intro t
  apply h.bind (hs.operand 0)
  rintro (_ | condition)
  · exact h.pure none
  · refine h.bind h.accept fun _ => Inherited.ite (h.bind (h.whenTrue hs) fun _ => ?_) (h.pure _)
    refine h.bind (h.discard h.expect) fun _ => h.bind hs.expression fun _ => ?_
    exact h.done rfl

theorem assignment (hn : ∀ {payload : Payload (Option NodeId)} (start : Nat),
    payload.isOperation = true → P NodeId (Grammar.node payload start)) :
    P (Option NodeId) (assignment self) := by
  have hd {payload : Payload (Option NodeId)} (start : Nat) (ho : payload.isOperation = true) :
      P (Option NodeId) (Grammar.done payload start) := h.bind (hn start ho) fun _ => h.pure _
  apply h.looking looks_token
  intro t
  apply h.bind (h.conditional hs)
  rintro (_ | target)
  · exact h.pure none
  · refine h.looking looks_token fun _ => h.bind h.accept fun _ => Inherited.ite ?_ ?_
    · exact h.bind h.accept fun _ => h.bind hs.expression fun _ => hd _ rfl
    · refine Inherited.ite (h.bind h.advance fun _ => ?_) (h.pure _)
      exact h.bind hs.expression fun _ => hd _ rfl

theorem initialValue : P (Option NodeId) (initialValue self) :=
  h.bind h.accept fun _ => Inherited.ite hs.expression (h.pure none)

/-! ## Functions -/

theorem parameter : P (Option NodeId) (parameter self n) := by
  refine h.looking looks_token fun _ => h.bind h.modifiers fun _ => ?_
  refine h.bind h.parameterHint fun _ => h.bind h.accept fun _ => h.bind h.accept fun _ => ?_
  refine h.looking looks_token fun _ => h.bind h.accept fun _ => Inherited.ite ?_ h.fail
  exact h.bind (h.initialValue hs) fun _ => h.done rfl

theorem parameterItems {bound : Nat} :
    P (List (Option NodeId)) (parameterItems self bound n) := by
  induction n with
  | zero => exact h.outOfSteps
  | succ n ih =>
    refine h.looking (looks_isAtEndOr _) fun _ => Inherited.ite (h.pure _) ?_
    apply h.bind (h.parameter hs)
    rintro (_ | item)
    · exact h.pure _
    · exact h.bind h.accept fun _ => Inherited.ite (h.bind ih fun _ => h.pure _) (h.pure _)

theorem parameterList : P (List (Option NodeId)) (parameterList self n) := by
  refine h.bind h.expect fun _ => Inherited.ite ?_ (h.pure _)
  exact h.bind (h.parameterItems hs) fun _ => h.bind (h.discard h.expect) fun _ => h.pure _

end

theorem declaredName {fits : TokenKind → Bool} : P (Option NodeId) (declaredName fits part) := by
  apply h.bind h.identifierOf
  rintro (_ | name)
  · exact h.fail
  · exact h.pure _

/-! ## Lists of statements -/

theorem statementList {closing : TokenKind} {stopAtNamespace : Bool}
    (hs : P (Option NodeId) (self .statement)) :
    P (List (Option NodeId)) (statementList self closing stopAtNamespace n) := by
  induction n with
  | zero => exact h.outOfSteps
  | succ n ih =>
    refine h.looking (looks_isAtEndOr _) fun _ => Inherited.ite (h.pure _) ?_
    refine h.looking looks_isAtNamespace fun _ => Inherited.ite (h.pure _) ?_
    refine h.looking looks_token fun _ => ?_
    exact h.bind hs fun _ => h.bind h.passOver fun _ => h.bind ih fun _ => h.pure _

theorem block (hs : P (Option NodeId) (self .statement))
    (hn : ∀ statements start, P (Option NodeId) (Grammar.done (.block statements) start)) :
    P (Option NodeId) (block self n) := by
  refine h.looking looks_token fun t => h.bind (h.discard h.expect) fun _ => ?_
  exact h.bind (h.statementList hs) fun _ => h.bind (h.discard h.expect) fun _ => hn _ t.start

theorem ifStatement (he : P (Option NodeId) (self .expression))
    (hs : P (Option NodeId) (self .statement)) (hi : P (Option NodeId) (self .ifStatement))
    (hn : ∀ condition thenBranch elseBranch start,
      P (Option NodeId) (Grammar.done (.ifStatement condition thenBranch elseBranch) start)) :
    P (Option NodeId) (ifStatement self) := by
  have hbranch : P (Option NodeId) (elseBranch self) :=
    h.looking (looks_isAt _) fun _ => Inherited.ite hi <|
      h.bind h.accept fun _ => Inherited.ite hs (h.pure none)
  refine h.looking looks_token fun t => h.bind h.advance fun _ => ?_
  refine h.bind (h.discard h.expect) fun _ => h.bind he fun _ => ?_
  refine h.bind (h.discard h.expect) fun _ => h.bind h.refuseColon fun _ => ?_
  exact h.bind hs fun _ => h.bind hbranch fun _ => hn _ _ _ t.start

theorem functionBody (hb : P (Option NodeId) (Grammar.block self n)) :
    P (Option NodeId) (functionBody self n) :=
  h.looking (looks_isAt _) fun _ => Inherited.ite hb (h.bind h.expectSemicolon fun _ => h.pure none)

/-- What is read of a function before it is a node has the property if its body does. -/
theorem functionDecl {found : Modifiers} {doc : Option String} (hs : OfExpressions P self)
    (hb : P (Option NodeId) (Grammar.block self n)) :
    P (FunctionDecl (Option NodeId)) (functionDecl self n found doc) := by
  refine h.bind (h.discard h.expect) fun _ => h.bind h.accept fun _ => ?_
  refine h.bind h.declaredName fun _ => h.bind (h.parameterList hs) fun _ => ?_
  exact h.bind h.hintAfterColon fun _ => h.bind (h.functionBody hb) fun _ => h.pure _

theorem functionLike {form : FunctionForm} {found : Modifiers} {doc : Option String}
    (hs : OfExpressions P self) (hb : P (Option NodeId) (Grammar.block self n))
    (hn : ∀ d, P (Option NodeId) (Grammar.done (.function form d) start)) :
    P (Option NodeId) (functionLike self n form start found doc) := by
  rw [functionLike_eq_decl]
  exact h.bind (h.functionDecl hs hb) hn

/-! ## Imports, members and classes -/

theorem importDeclaration : P (Option NodeId) (importDeclaration n) := by
  refine h.looking looks_token fun _ => h.bind h.advance fun _ => h.bind h.importForm fun _ => ?_
  exact h.bind h.importItems fun _ => h.bind h.expectSemicolon fun _ => h.done rfl

theorem classNames : P (List (Option NodeId)) (classNames n) := by
  induction n with
  | zero => exact h.outOfSteps
  | succ n ih =>
    refine h.bind h.classNameRule fun _ => h.bind h.accept fun _ => Inherited.ite ?_ (h.pure _)
    exact h.bind ih fun _ => h.pure _

theorem traitUse : P (Option NodeId) (traitUse n) := by
  refine h.looking looks_token fun _ => h.bind h.advance fun _ => h.bind h.classNames fun _ => ?_
  exact h.bind h.conflictRules fun _ => h.done rfl

theorem parentNames {form : ClassForm} : P (List (Option NodeId)) (parentNames n form) :=
  h.bind h.accept fun _ =>
    Inherited.ite (Inherited.ite h.classNames (h.map h.classNameRule)) (h.pure _)

theorem interfaceNames {form : ClassForm} : P (List (Option NodeId)) (interfaceNames n form) :=
  Inherited.ite (h.bind h.accept fun _ => Inherited.ite h.classNames (h.pure _)) (h.pure _)

section

variable (hs : OfExpressions P self)

include hs

theorem enumCase : P (Option NodeId) (enumCase self start) := by
  refine h.bind h.advance fun _ => h.looking looks_token fun _ => Inherited.ite h.fail ?_
  refine h.bind h.advance fun _ => h.bind (h.initialValue hs) fun _ => ?_
  exact h.bind h.expectSemicolon fun _ => h.done rfl

theorem constantItems {found : Modifiers} {m : Nat} :
    P (List (Option NodeId)) (constantItems self start found m) := by
  induction m with
  | zero => exact h.outOfSteps
  | succ m ih =>
    refine h.looking looks_token fun _ => ?_
    refine Inherited.ite (h.bind (h.report nofun) fun _ => h.pure _) ?_
    refine h.bind h.advance fun _ => h.bind (h.discard h.expect) fun _ => ?_
    refine h.bind hs.expression fun _ => h.bind (h.node rfl) fun _ => h.bind h.accept fun _ => ?_
    exact Inherited.ite (h.bind ih fun _ => h.pure _) (h.bind h.expectSemicolon fun _ => h.pure _)

theorem constants {found : Modifiers} : P (List (Option NodeId)) (constants self n start found) :=
  h.bind h.advance fun _ => h.bind h.constantHint fun _ => h.constantItems hs

theorem propertyItems {found : Modifiers} {type : Option TypeHint} {doc : Option String} {m : Nat}
    (hn : ∀ d : PropertyDecl (Option NodeId), d.doc = doc →
      P NodeId (Grammar.node (.property d) start)) :
    P (List (Option NodeId)) (propertyItems self start found type doc m) := by
  induction m with
  | zero => exact h.outOfSteps
  | succ m ih =>
    refine h.looking looks_token fun _ => h.bind h.accept fun _ => ?_
    refine Inherited.ite (h.bind (h.report nofun) fun _ => h.pure _) ?_
    refine h.bind (h.initialValue hs) fun _ => h.bind (hn _ rfl) fun _ => ?_
    refine h.bind h.accept fun _ => Inherited.ite (h.bind ih fun _ => h.pure _) ?_
    exact h.bind h.expectSemicolon fun _ => h.pure _

theorem properties {found : Modifiers} {doc : Option String}
    (hn : ∀ d : PropertyDecl (Option NodeId), d.doc = doc →
      P NodeId (Grammar.node (.property d) start)) :
    P (List (Option NodeId)) (properties self n start found doc) :=
  h.bind h.propertyHint fun _ => h.propertyItems hs hn

/-! ## Statements -/

theorem returnStatement : P (Option NodeId) (returnStatement self) := by
  have hv : P (Option NodeId) (returnValue self) :=
    h.looking looks_token fun _ => Inherited.ite (h.pure none) hs.expression
  refine h.looking looks_token fun _ => h.bind h.advance fun _ => h.bind hv fun _ => ?_
  exact h.bind h.expectSemicolon fun _ => h.done rfl

theorem expressionStatement : P (Option NodeId) (expressionStatement self) := by
  apply h.looking looks_token
  intro t
  apply h.bind hs.expression
  rintro (_ | e)
  · exact h.pure none
  · exact h.bind h.expectSemicolon fun _ => h.done rfl

end

theorem namespaceDeclaration (hs : P (Option NodeId) (self .statement)) :
    P (Option NodeId) (namespaceDeclaration self n) := by
  refine h.looking looks_token fun _ => h.bind h.advance fun _ => h.bind h.namespaceName fun _ => ?_
  refine h.bind h.accept fun _ => Inherited.ite ?_ ?_
  · refine h.bind (h.statementList hs) fun _ => h.bind (h.discard h.expect) fun _ => ?_
    exact h.done rfl
  · refine h.bind h.namespaceEnd fun _ => h.bind (h.statementList hs) fun _ => ?_
    exact h.done rfl

end Growing

/-! ## Rules that take comments -/

namespace Composed

variable {P : (α : Type) → Parse α → Prop} {self : Rules} (h : Composed P)

include h

section

variable (he : OfExpressions P self)
variable (hm : ∀ (start : Nat) (found : Modifiers) (doc : Option String),
  P (Option NodeId) (functionLike self n .method start found doc))

include he hm

theorem classMember : P (List (Option NodeId)) (classMember self n) := by
  refine h.looking looks_token fun _ => h.bind h.takeDoc fun _ => ?_
  refine h.looking (looks_isAt _) fun _ => Inherited.ite (h.map h.traitUse) ?_
  refine h.looking (looks_isAtWord _) fun _ => Inherited.ite (h.map (h.enumCase he)) ?_
  apply h.bind h.modifiers
  intro found
  apply h.looking looks_token
  intro t
  split
  · exact h.constants he
  · exact h.map (hm _ _ _)
  · exact h.bind h.advance fun _ => h.pure _
  · refine Inherited.ite (h.bind (h.report nofun) fun _ => h.pure _) ?_
    exact h.properties he fun d _ => h.property d _

theorem classMembers {m : Nat} : P (List (Option NodeId)) (classMembers self n m) := by
  induction m with
  | zero => exact h.outOfSteps
  | succ m ih =>
    refine h.looking (looks_isAtEndOr _) fun _ => Inherited.ite (h.pure _) ?_
    refine h.looking looks_token fun _ => h.bind (h.classMember he hm) fun _ => ?_
    exact h.bind h.passOverMember fun _ => h.bind ih fun _ => h.pure _

theorem classBody : P (List (Option NodeId)) (classBody self n) :=
  h.bind h.expect fun _ => Inherited.ite (h.bind (h.classMembers he hm) fun _ =>
    h.bind (h.discard h.expect) fun _ => h.pure _) (h.pure _)

theorem classDeclaration (hn : ∀ (form : ClassForm) (d : ClassDecl (Option NodeId)) (start : Nat),
    P (Option NodeId) (done (.classLike form d) start)) :
    P (Option NodeId) (classDeclaration self n) := by
  refine h.looking looks_token fun _ => h.bind h.takeDoc fun _ => h.bind h.modifiers fun _ => ?_
  apply h.looking looks_token
  intro t
  split
  · refine h.bind h.advance fun _ => h.bind h.declaredName fun _ => ?_
    refine h.bind h.backingHint fun _ => h.bind h.parentNames fun _ => ?_
    refine h.bind h.interfaceNames fun _ => h.bind (h.classBody he hm) fun _ => ?_
    exact hn _ _ _
  · exact h.bind (h.report nofun) fun _ => h.pure none

end

theorem statementBody (hs : OfStatements P self n) :
    P (Option NodeId) (statementBody self n) := by
  have hskip : P (Option NodeId) (advance >>= fun _ => return (none : Option NodeId)) :=
    h.bind h.advance fun _ => h.pure none
  have hskipped : P (Option NodeId) (skippedStatement n) :=
    h.bind h.skipStatement fun _ => h.pure none
  have hclass := hs.classDeclaration
  have hexpression := h.expressionStatement hs.toOfExpressions
  apply h.looking looks_token
  intro t
  split
  · exact hskip
  · exact hskip
  · exact hskip
  · exact h.bind h.advance fun _ => h.done rfl
  · exact hs.block
  · refine h.looking looks_isAtNamespace fun _ => Inherited.ite ?_ hexpression
    exact h.namespaceDeclaration hs.statement
  · exact h.importDeclaration
  · exact hclass
  · exact hclass
  · exact hclass
  · exact hclass
  · exact hclass
  · exact hclass
  · obtain ⟨g, hg⟩ := looks_isAtFunctionName
    exact h.looking hg fun _ => Inherited.ite hs.function hexpression
  · exact h.returnStatement hs.toOfExpressions
  · exact hs.ifStatement
  · exact hskipped
  · exact h.looking (looks_kindAhead 1) fun _ => Inherited.ite hexpression hskipped
  · refine h.looking looks_isAtEnum fun _ => Inherited.ite hclass ?_
    exact Inherited.ite hskipped hexpression
  · exact hexpression

end Composed

end Grammar

end PhpAtlas
