import PhpAtlas.Proofs.Composing
import PhpAtlas.Proofs.Levels.Moments
import PhpAtlas.Proofs.Reading.Sources

/-! # Levels of rules

Every run of a rule can be followed, since rules are made of steps that keep the depth
and of calls that keep the balance. So all rules leave the depth as they find it, and
from the first token of a source to its end the depth counts the open statements and
expressions.
-/

namespace PhpAtlas

namespace Grammar

variable {α β : Type} {m : Parse α} {self : Rules} {n : Nat} {s s' : State} {a : α}

/-! ## Rules that may add any node -/

namespace Composed

variable {P : (α : Type) → Parse α → Prop} (h : Composed P)
variable (hnode : ∀ payload start, P NodeId (node payload start))

include h hnode

theorem anyDone {payload : Payload (Option NodeId)} {start : Nat} :
    P (Option NodeId) (done payload start) :=
  h.bind (hnode payload start) fun _ => h.pure _

section

variable (hr : ∀ goal, P (Option NodeId) (self goal))

include hr

theorem ofExpressions : OfExpressions P self where
  expression := hr .expression
  operand level := hr (.operand level)
  unary := hr .unary
  primary := hr .primary
  parentheses _ := h.parentheses (hr .expression) fun _ => h.anyDone hnode

theorem anyBlock : P (Option NodeId) (block self n) :=
  h.block (hr .statement) fun _ _ => h.anyDone hnode

theorem anyFunction {form : FunctionForm} {start : Nat} {found : Modifiers}
    {doc : Option String} : P (Option NodeId) (functionLike self n form start found doc) :=
  h.functionLike (h.ofExpressions hnode hr) (h.anyBlock hnode hr) fun _ => h.anyDone hnode

theorem anyIfStatement : P (Option NodeId) (ifStatement self) :=
  h.ifStatement (hr .expression) (hr .statement) (hr .ifStatement) fun _ _ _ _ => h.anyDone hnode

theorem ofStatements : OfStatements P self n where
  toOfExpressions := h.ofExpressions hnode hr
  statement := hr .statement
  block := h.anyBlock hnode hr
  ifStatement := h.anyIfStatement hnode hr
  function := h.looking looks_token fun _ => h.bind h.takeDoc fun _ => h.anyFunction hnode hr
  classDeclaration := h.classDeclaration (h.ofExpressions hnode hr)
    (fun _ _ _ => h.anyFunction hnode hr) fun _ _ _ => h.anyDone hnode

theorem callBody (c : Call) : P (Option NodeId) (c.body self n) := by
  cases c with
  | statement => exact h.statementBody (h.ofStatements hnode hr)
  | expression => exact h.assignment (h.ofExpressions hnode hr) fun start _ => hnode _ start

end

/-- The property holds of all rules if calls inherit it from what they do one level deeper. -/
theorem ofRules (hcall : ∀ (c : Call) (self : Rules) (n : Nat),
      P (Option NodeId) (c.body self n) → P (Option NodeId) (c.rule self n)) (n : Nat)
    (goal : Goal) : P (Option NodeId) (rules n goal) := by
  induction n generalizing goal with
  | zero => exact h.outOfSteps
  | succ n ih =>
    have he := h.ofExpressions hnode ih
    have hn {payload : Payload (Option NodeId)} (start : Nat) (_ : payload.isOperation = true) :
        P NodeId (node payload start) := hnode payload start
    cases goal with
    | expression => exact hcall .expression _ n (h.callBody hnode ih .expression)
    | operand level => exact h.operandRule he hn
    | unary => exact h.unaryRule he
    | primary => exact h.primaryRule he
    | statement => exact hcall .statement _ n (h.callBody hnode ih .statement)
    | ifStatement => exact h.anyIfStatement hnode ih

end Composed

/-! ## Rules that can be followed -/

/-- Every run of the rule can be followed, whatever calls are open. -/
def Traceable (m : Parse α) : Prop :=
  ∀ calls s a s', m.run s = some (a, s') → ∃ moments, Traced calls m s moments a s'

theorem Act.traceable (h : Act m) : Traceable m := fun _ _ _ _ hr => ⟨_, .act h hr⟩

theorem Looks.traceable {g : State → α} (h : Looks m g) : Traceable m := by
  intro calls s a s' hr
  cases (h s).symm.trans hr
  exact ⟨[], .look h⟩

theorem Traceable.bind {f : α → Parse β} (hm : Traceable m) (hf : ∀ a, Traceable (f a)) :
    Traceable (m >>= f) := by
  intro calls s b s'' hr
  obtain ⟨a, s', hr, hr'⟩ := run_bind_eq_some hr
  obtain ⟨before, h⟩ := hm calls s a s' hr
  obtain ⟨after, h'⟩ := hf a calls s' b s'' hr'
  exact ⟨before ++ after, h.bind h'⟩

/-- A call is refused, or what it does one level deeper is followed. -/
theorem Traceable.call {c : Call} (hrecover : Traceable c.recover)
    (h : Traceable (c.body self n)) : Traceable (c.rule self n) := by
  intro calls s a s' hr
  have hr' := hr
  rw [Call.rule_eq] at hr'
  rcases run_nested_eq_some hr' with ⟨hd, s₁, s₂, hreport, hback, rfl⟩ | ⟨s₁, hd, hbody, rfl⟩
  · -- The call is closed before it recovers, so the outer calls are those that are open then.
    have hd : maxDepth ≤ s.depth := Nat.le_of_lt_succ hd
    obtain ⟨after, h⟩ := hrecover calls s₁.shallower () s' hback
    rw [Call.rule_eq, run_nested_of_deep hd hreport hback] at hr
    cases hr
    exact ⟨_, .refuse hd hreport h⟩
  · obtain ⟨inner, h⟩ := h (c :: calls) s.deeper a s₁ hbody
    exact ⟨_, .enter hd h⟩

theorem composed_traceable : Composed fun _ m => Traceable m where
  pure _ := Looks.traceable fun _ => rfl
  bind := .bind
  look := Looks.traceable
  outOfSteps := fun _ _ _ _ hr => nomatch hr
  advance := Act.advance.traceable
  report h := (Act.report h).traceable
  takeDoc := Act.takeDoc.traceable
  node _ := (Act.node _ _).traceable
  property _ _ := (Act.node _ _).traceable

theorem traceable_node (payload : Payload (Option NodeId)) (start : Nat) :
    Traceable (node payload start) :=
  (Act.node payload start).traceable

theorem traceable_call (c : Call) (h : Traceable (c.body self n)) : Traceable (c.rule self n) := by
  refine .call ?_ h
  cases c with
  | statement => exact composed_traceable.advance
  | expression => exact composed_traceable.pure ()

theorem traceable_rules (n : Nat) (goal : Goal) : Traceable (rules n goal) :=
  composed_traceable.ofRules traceable_node (fun c _ _ => traceable_call c) n goal

theorem traceable_sourceFile (n : Nat) : Traceable (sourceFile n) :=
  have h := composed_traceable
  h.bind h.advance fun _ => h.bind (h.statementList (traceable_rules n .statement)) fun _ =>
    h.bind Act.readOn.traceable fun _ => traceable_node _ _

/-! ## The rules of the grammar -/

/-- The rules of the grammar, with what they use of each other and bounds for their loops. -/
inductive IsRule (self : Rules) : {α : Type} → Parse α → Prop
  | accept (kind : TokenKind) : IsRule self (accept kind)
  | expect (kind : TokenKind) (spelling : String) : IsRule self (expect kind spelling)
  | expectSemicolon : IsRule self expectSemicolon
  | identifier (fits : TokenKind → Bool) : IsRule self (identifierOf fits)
  | singleHint : IsRule self singleHint
  | intersectionHint (n : Nat) : IsRule self (intersectionHint n)
  | memberHint (n : Nat) : IsRule self (memberHint n)
  | hint (n : Nat) : IsRule self (hint n)
  | loneHint (n : Nat) : IsRule self (loneHint n)
  | className : IsRule self classNameRule
  | classNames (n : Nat) : IsRule self (classNames n)
  | skippedExpression (n start : Nat) : IsRule self (skippedExpression n start)
  | variableVariable : IsRule self (variableVariable self)
  | arrayLiteral (n : Nat) (closing : TokenKind) (spelling : String) :
      IsRule self (arrayLiteral self n closing spelling)
  | arguments (n : Nat) : IsRule self (arguments self n)
  | classReference : IsRule self (classReference self)
  | newExpression (n : Nat) : IsRule self (newExpression self n)
  | primary (n : Nat) : IsRule self (primary self n)
  | memberName : IsRule self (memberName self)
  | suffixes (bound start n : Nat) (e : NodeId) : IsRule self (suffixes self bound start n e)
  | unaryOf (start : Nat) (operator : String) : IsRule self (unaryOf self start operator)
  | unary (n : Nat) : IsRule self (unary self n)
  | operand (n level : Nat) : IsRule self (operand self n level)
  | conditional : IsRule self (conditional self)
  | assignment : IsRule self (assignment self)
  | expression : IsRule self (expression self)
  | skipStatement (n depth : Nat) : IsRule self (skipStatement n depth)
  | statementList (closing : TokenKind) (stopAtNamespace : Bool) (n : Nat) :
      IsRule self (statementList self closing stopAtNamespace n)
  | block (n : Nat) : IsRule self (block self n)
  | modifiers (n : Nat) (found : Modifiers) : IsRule self (modifiers n found)
  | importAlias : IsRule self importAlias
  | importGroup (n : Nat) (shared : String) : IsRule self (importGroup n shared)
  | importDeclaration (n : Nat) : IsRule self (importDeclaration n)
  | parameter (n : Nat) : IsRule self (parameter self n)
  | parameterList (n : Nat) : IsRule self (parameterList self n)
  | functionLike (n : Nat) (form : FunctionForm) (start : Nat) (found : Modifiers)
      (doc : Option String) : IsRule self (functionLike self n form start found doc)
  | functionDeclaration (n : Nat) : IsRule self (functionDeclaration self n)
  | traitUse (n : Nat) : IsRule self (traitUse n)
  | enumCase (start : Nat) : IsRule self (enumCase self start)
  | constants (n start : Nat) (found : Modifiers) : IsRule self (constants self n start found)
  | properties (n start : Nat) (found : Modifiers) (doc : Option String) :
      IsRule self (properties self n start found doc)
  | classMember (n : Nat) : IsRule self (classMember self n)
  | classDeclaration (n : Nat) : IsRule self (classDeclaration self n)
  | namespaceDeclaration (n : Nat) : IsRule self (namespaceDeclaration self n)
  | returnStatement : IsRule self (returnStatement self)
  | ifStatement : IsRule self (ifStatement self)
  | expressionStatement : IsRule self (expressionStatement self)
  | statementBody (n : Nat) : IsRule self (statementBody self n)
  | statement (n : Nat) : IsRule self (statement self n)
  | sourceFile (n : Nat) : IsRule self (sourceFile n)

theorem IsRule.traceable (h : IsRule (rules n) m) : Traceable m := by
  have hc := composed_traceable
  have he := hc.ofExpressions traceable_node (traceable_rules n)
  have hs {k : Nat} := hc.ofStatements traceable_node (traceable_rules n) (n := k)
  have hfunction {k start : Nat} {form : FunctionForm} {found : Modifiers} {doc : Option String} :
      Traceable (Grammar.functionLike (rules n) k form start found doc) :=
    hc.anyFunction traceable_node (traceable_rules n)
  have hoperation {payload : Payload (Option NodeId)} (start : Nat)
      (_ : payload.isOperation = true) : Traceable (node payload start) := traceable_node _ _
  cases h with
  | accept => exact hc.accept
  | expect => exact hc.expect
  | expectSemicolon => exact hc.expectSemicolon
  | identifier => exact hc.identifierOf
  | singleHint => exact hc.singleHint
  | intersectionHint => exact hc.intersectionHint
  | memberHint => exact hc.memberHint
  | hint => exact hc.hint
  | loneHint => exact hc.loneHint
  | className => exact hc.classNameRule
  | classNames => exact hc.classNames
  | skippedExpression => exact hc.skippedExpression
  | variableVariable => exact hc.variableVariable he
  | arrayLiteral => exact hc.arrayLiteral he
  | arguments => exact hc.arguments he
  | classReference => exact hc.classReference he
  | newExpression => exact hc.newExpression he
  | primary => exact hc.primaryRule he
  | memberName => exact hc.memberName he
  | suffixes => exact hc.suffixes he
  | unaryOf => exact hc.unaryOf he
  | unary => exact hc.unaryRule he
  | operand => exact hc.operandRule he hoperation
  | conditional => exact hc.conditional he
  | assignment => exact hc.assignment he hoperation
  | expression => exact traceable_call (n := 0) .expression (hc.assignment he hoperation)
  | skipStatement => exact hc.skipStatement
  | statementList => exact hc.statementList (traceable_rules n .statement)
  | block => exact hs.block
  | modifiers => exact hc.modifiers
  | importAlias => exact hc.importAlias
  | importGroup => exact hc.importGroup
  | importDeclaration => exact hc.importDeclaration
  | parameter => exact hc.parameter he
  | parameterList => exact hc.parameterList he
  | functionLike => exact hfunction
  | functionDeclaration => exact hs.function
  | traitUse => exact hc.traitUse
  | enumCase => exact hc.enumCase he
  | constants => exact hc.constants he
  | properties => exact hc.properties he fun _ _ => traceable_node _ _
  | classMember => exact hc.classMember he fun _ _ _ => hfunction
  | classDeclaration => exact hs.classDeclaration
  | namespaceDeclaration => exact hc.namespaceDeclaration (traceable_rules n .statement)
  | returnStatement => exact hc.returnStatement he
  | ifStatement => exact hc.anyIfStatement traceable_node (traceable_rules n)
  | expressionStatement => exact hc.expressionStatement he
  | statementBody => exact hc.statementBody hs
  | statement => exact traceable_call .statement (hc.statementBody hs)
  | sourceFile => exact traceable_sourceFile _

/-! ## Sources -/

/-- No other fault has this message. -/
theorem eq_tooDeep_of_message {fault : SyntaxFault}
    (h : fault.message = "maximum nesting depth exceeded") : fault = .tooDeep := by
  have hend := congrArg (fun text : String => text.toList.reverse.take 3) h
  have hstart := congrArg (fun text : String => text.toList.head?) h
  cases fault with
  | tooDeep => rfl
  | missing spelling => simp [SyntaxFault.message] at hstart
  | expected part => simp [SyntaxFault.message] at hend
  | alternativeControl => simp [SyntaxFault.message] at hstart
  | trailingText => simp [SyntaxFault.message] at hstart

/-- A run over a whole source has the right depth at every moment, none at its end, and has reported
that the nesting is too deep only where it is. -/
structure Balanced (source : List Char) (moments : List Moment) (s : State) : Prop where
  counted : ∀ x ∈ ⟨[], .before source⟩ :: moments, x.Counted
  closed : s.depth = 0
  tooDeep : ∀ d ∈ (Parsed.ofSource source).diagnostics,
    d.fault.message = "maximum nesting depth exceeded" →
      ∃ x ∈ moments, maxDepth < x.calls.length ∧ x.state.stream.current.start = d.start

theorem Traced.balanced {source : List Char} {moments : List Moment} {root : NodeId}
    (h : Traced [] (sourceFile (bound source.length)) (.before source) moments root s) :
    Balanced source moments s where
  counted := List.forall_mem_cons.mpr ⟨⟨rfl, Nat.zero_le _⟩, h.counted rfl (Nat.zero_le _)⟩
  closed := h.depth_eq
  tooDeep d hd hf := by
    rw [Parsed.ofSource, h.run_eq] at hd
    rcases h.of_tooDeep rfl (Array.mem_toList_iff.mp hd) (eq_tooDeep_of_message hf) with hd | hd
    · exact absurd hd (Array.not_mem_empty d)
    · exact hd

end Grammar

open Grammar

/-- Every rule leaves the depth as it finds it, from whatever state it runs and whatever it reports,
and its runs are those that can be followed. However the run over a source is followed, the depth is
the number of open statements and expressions at every moment. -/
theorem nesting_balanced :
    (∀ {n : Nat} {α : Type} {m : Parse α}, IsRule (rules n) m → ∀ calls s a s',
      (m.run s = some (a, s') ↔ ∃ moments, Traced calls m s moments a s') ∧
        (m.run s = some (a, s') → s'.depth = s.depth)) ∧
    ∀ source : List Char,
      (∃ moments root s,
        Traced [] (sourceFile (bound source.length)) (.before source) moments root s) ∧
      ∀ moments root s,
        Traced [] (sourceFile (bound source.length)) (.before source) moments root s →
          Balanced source moments s := by
  refine ⟨fun hrule calls s a s' => ?_, fun source => ⟨?_, fun moments root s h => h.balanced⟩⟩
  · have hfollowed (hr : _ = some (a, s')) := hrule.traceable calls s a s' hr
    refine ⟨⟨hfollowed, fun ⟨_, h⟩ => h.run_eq⟩, fun hr => ?_⟩
    obtain ⟨moments, h⟩ := hfollowed hr
    exact h.depth_eq
  · obtain ⟨root, s, hr, -⟩ := yields_sourceFile source le_rfl
    obtain ⟨moments, h⟩ := traceable_sourceFile _ [] _ root s hr
    exact ⟨moments, root, s, h⟩

/-- At the deepest level a statement is refused, and a call that is not closed is an error. -/
theorem nesting_balanced_at_limit :
    (∃ s', IsRule (rules 0) (statement (rules 0) 0) ∧
      (statement (rules 0) 0).run { State.before "<?php".toList with depth := maxDepth } =
        some (none, s') ∧ s'.diagnostics.size = 1 ∧ s'.depth = maxDepth) ∧
    ∃ moments root s, Traced [] (sourceFile (bound "<?php f(".toList.length))
      (.before "<?php f(".toList) moments root s ∧ Balanced "<?php f(".toList moments s := by
  constructor
  · have hrun : ∃ s', (statement (rules 0) 0).run
        { State.before "<?php".toList with depth := maxDepth } = some (none, s') ∧
          s'.diagnostics.size = 1 := ⟨_, rfl, rfl⟩
    obtain ⟨s', hr, hsize⟩ := hrun
    exact ⟨s', .statement 0, hr, hsize, (nesting_balanced.1 (.statement 0) [] _ _ _).2 hr⟩
  · obtain ⟨⟨moments, root, s, h⟩, hall⟩ := nesting_balanced.2 "<?php f(".toList
    exact ⟨moments, root, s, h, hall moments root s h⟩

end PhpAtlas
