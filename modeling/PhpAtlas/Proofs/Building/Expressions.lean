import PhpAtlas.Grammar.Expression
import PhpAtlas.Proofs.Building.Work

/-! # How expressions are formed

Each rule leaves one part, which is missing where the rule fails. A rule that
fails after an operand drops the operand, whose node then stays without a parent.
-/

namespace PhpAtlas.Grammar

open Item

variable {n : Nat} {inp : List Item} {t : Token}

/-! ## Type hints and skipped runs -/

theorem forms_singleHint : Forms singleHint [] gap := by
  apply looks_token.quiet.next
  intro t
  split
  · exact quiet_advance.next fun _ => .pure (.refl _)
  · exact forms_report.bind fun _ => .pure (.refl _)

theorem gap_map {α β : Type} (f : α → β) (r : Option α) : gap (r.map f) = gap r := by
  cases r <;> rfl

theorem forms_joinedHints : Forms (joinedHints n) [] gap := by
  induction n with
  | zero => exact forms_outOfSteps
  | succ n ih =>
    refine (looks_kindAhead 1).quiet.next fun _ => (looks_isAt _).quiet.next fun _ => ?_
    refine .ite (quiet_advance.next fun _ => ?_) (.pure (.refl _))
    apply forms_singleHint.bind
    intro r
    cases r with
    | none => exact .pure (.refl _)
    | some hint => exact ih.bind fun rest => .pure (gap_map _ rest ▸ .refl _)

theorem forms_intersectionHint : Forms (intersectionHint n) [] gap := by
  apply forms_singleHint.bind
  intro first
  cases first with
  | none => exact .pure (.refl _)
  | some first =>
    apply forms_joinedHints.bind
    intro rest
    cases rest with
    | none => exact .pure (.refl _)
    | some rest => exact .pure (.refl _)

theorem forms_memberHint : Forms (memberHint n) [] gap := by
  refine quiet_accept.next fun _ => .ite (forms_intersectionHint.bind fun r => ?_)
    forms_intersectionHint
  cases r with
  | none => exact .pure (.refl _)
  | some inner => exact quiet_expect.discard.next fun _ => .pure (.refl _)

theorem forms_unitedHints {bound : Nat} : Forms (unitedHints bound n) [] gap := by
  induction n with
  | zero => exact forms_outOfSteps
  | succ n ih =>
    refine quiet_accept.next fun _ => .ite (forms_memberHint.bind fun r => ?_) (.pure (.refl _))
    cases r with
    | none => exact .pure (.refl _)
    | some hint => exact ih.bind fun rest => .pure (gap_map _ rest ▸ .refl _)

theorem forms_hint : Forms (hint n) [] gap := by
  refine quiet_accept.next fun _ => .ite ?_ ?_
  · exact forms_singleHint.bind fun inner => .pure (gap_map _ inner ▸ .refl _)
  · apply forms_memberHint.bind
    intro first
    cases first with
    | none => exact .pure (.refl _)
    | some first =>
      apply forms_unitedHints.bind
      intro rest
      cases rest with
      | none => exact .pure (.refl _)
      | some rest => exact .pure (.refl _)

/-! ## Names -/

theorem forms_classNameRule : Forms classNameRule [] one := by
  refine fun t => .note fun _ => .ite (fun _ => ?_) fun h => ?_
  · exact (forms_fail t).drop (List.nil_sublist _)
  · have ht : t.kind ≠ .endOfFile := ne_endOfFile_of_isName (by simpa using h)
    exact .begin ht (forms_done [] trivial rfl fun _ => trivial)

theorem forms_identifierOf {fits : TokenKind → Bool}
    (h : ∀ kind, fits kind = true → kind.isMemberName = true) :
    Forms (identifierOf fits) [] opt := by
  refine fun t => .note fun hb => .ite (fun hf => ?_) fun _ => .pure (List.nil_sublist _)
  have hm : t.kind.isMemberName = true := h _ hf
  refine .begin (ne_endOfFile_of_isMemberName hm) (.opt ?_)
  exact forms_done [] (hb.text hm) rfl fun _ => trivial

variable {pos : Nat}

theorem forms_skipped : Forms (done .skipped pos) [begun pos] one :=
  forms_done [] trivial rfl fun _ => trivial

theorem forms_skippedExpression : Forms (skippedExpression n pos) [begun pos] one :=
  inherited_quiet.skipRun.next fun _ => forms_skipped

theorem word_cases {kind : TokenKind} (h : kind.isMemberName = true) :
    kind = .identifier ∨ ∃ k, kind = .keyword k := by
  cases kind <;> first | exact .inl rfl | exact .inr ⟨_, rfl⟩ | cases h

/-- A run that starts with a word takes the word. -/
theorem formsAt_skippedExpression (ht : t.kind.isMemberName = true) :
    FormsAt t (skippedExpression n pos) [mark pos] one := by
  have hskip (n : Nat) : Forms (skipRun n 0 >>= fun _ => done .skipped pos) [begun pos] one :=
    inherited_quiet.skipRun.next fun _ => forms_skipped
  unfold skippedExpression
  cases n with
  | zero => exact forms_outOfSteps.bind (fun _ => forms_skipped) t
  | succ n =>
    rw [skipRun, bind_assoc]
    refine .token fun _ => ?_
    rcases word_cases ht with hk | ⟨k, hk⟩
    · simp only [hk, bind_assoc]
      exact .begin (ne_endOfFile_of_isMemberName ht) (hskip n)
    · simp only [hk, bind_assoc]
      exact .begin (ne_endOfFile_of_isMemberName ht) (hskip n)

/-! ## Lists of expressions -/

/-- The rules that a rule is run with leave their result; a statement need not have one. -/
structure Builds (rules : Rules) : Prop where
  expression : Forms (rules .expression) [] one
  operand : ∀ level, Forms (rules (.operand level)) [] one
  unary : Forms (rules .unary) [] one
  primary : Forms (rules .primary) [] one
  statement : Forms (rules .statement) [] opt
  ifStatement : ∀ t : Token, t.kind ≠ .endOfFile → FormsAt t (rules .ifStatement) [] opt

/-- The slots of an entry of an array. A key that there is has been read first. -/
abbrev entryParts (entry : Option NodeId × Option NodeId) : List (Option NodeId) :=
  entry.1.toList.map some ++ [entry.2]

variable {self : Rules}

theorem forms_bracketed {closing : TokenKind} {spelling : String} (h : Builds self) :
    Forms (bracketed self closing spelling) [] one :=
  h.expression.bind fun _ => quiet_expect.discard.next fun _ => .pure (.refl _)

theorem formsAt_variableVariable (h : Builds self) (ht : t.kind ≠ .endOfFile) :
    FormsAt t (variableVariable self) [] one := by
  have hv : Forms (variableTarget self) [] one :=
    quiet_accept.next fun _ => .ite (forms_bracketed h) h.primary
  refine .note fun _ => .begin ht (hv.next fun e => ?_)
  exact forms_done [e] trivial rfl fun hw => hw e List.mem_cons_self

theorem forms_arrayEntry {first : NodeId} (h : Builds self) :
    Forms (arrayEntry self first) [slot (some first)] fun e => many (entryParts e) := by
  refine quiet_accept.next fun _ => .ite ?_ (.pure (.refl _))
  exact quiet_accept.discard.next fun _ => h.expression.next fun _ => .pure (.refl _)

theorem forms_arrayEntries {closing : TokenKind} (h : Builds self) :
    Forms (arrayEntries self closing n) [] fun es => many (es.flatMap entryParts) := by
  induction n with
  | zero => exact forms_outOfSteps
  | succ n ih =>
    refine (looks_isAtEndOr _).quiet.next fun _ => .ite (.pure (.refl _)) ?_
    refine quiet_accept.next fun _ => .ite ih ?_
    refine quiet_accept.discard.next fun _ => quiet_accept.discard.next fun _ => ?_
    apply h.expression.bind
    intro r
    cases r with
    | none => exact .pure (List.nil_sublist _)
    | some first =>
      refine (forms_arrayEntry h).bind fun entry => quiet_accept.next fun _ => .ite ?_ ?_
      · refine ih.next fun rest => .pure ?_
        rw [List.flatMap_cons, many_append]
      · exact .pure (by simp)

theorem childrenOf_array (entries : List (Option NodeId × Option NodeId)) :
    Arena.childrenOf (.array entries) = idsOf (entries.flatMap entryParts) := by
  induction entries with
  | nil => rfl
  | cons entry entries ih =>
    obtain ⟨key, value⟩ := entry
    simp only [Arena.childrenOf, Payload.slots, List.flatMap_cons, idsOf, List.filterMap_append]
      at ih ⊢
    rw [ih]
    cases key <;> rfl

theorem whole_array {entries : List (Option NodeId × Option NodeId)}
    (h : ∀ x ∈ entries.flatMap entryParts, x.isSome) : (Payload.array entries).Whole :=
  fun e he => h e.2 (List.mem_flatMap.mpr ⟨e, he, by simp⟩)

theorem formsAt_arrayLiteral {closing : TokenKind} {spelling : String} (h : Builds self)
    (ht : t.kind ≠ .endOfFile) : FormsAt t (arrayLiteral self n closing spelling) [] one := by
  refine .note fun _ => .begin ht ((forms_arrayEntries h).next fun entries => ?_)
  refine quiet_expect.discard.next fun _ => ?_
  exact forms_done _ trivial (childrenOf_array entries) whole_array

theorem forms_argumentList (h : Builds self) : Forms (argumentList self n) [] many := by
  induction n with
  | zero => exact forms_outOfSteps
  | succ n ih =>
    refine (looks_isAtEndOr _).quiet.next fun _ => .ite (.pure (.refl _)) ?_
    refine inherited_quiet.argumentName.next fun _ => quiet_accept.discard.next fun _ => ?_
    apply h.expression.bind
    intro r
    cases r with
    | none => exact .pure (List.nil_sublist _)
    | some argument =>
      refine quiet_accept.next fun _ => .ite ?_ (.pure (.refl _))
      exact ih.next fun rest => .pure (.refl _)

theorem forms_arguments (h : Builds self) : Forms (arguments self n) [] many := by
  refine quiet_expect.discard.next fun _ => (looks_isAt _).quiet.next fun _ => ?_
  refine (looks_kindAhead 1).quiet.next fun _ => .ite ?_ ?_
  · exact quiet_advance.next fun _ => quiet_advance.next fun _ => .pure (.refl _)
  · exact (forms_argumentList h).bind fun _ => quiet_expect.discard.next fun _ => .pure (.refl _)

/-! ## Primary expressions -/

theorem forms_classReference (h : Builds self) : Forms (classReference self) [] one := by
  apply looks_token.quiet.next
  intro t
  split
  · exact h.primary
  · exact h.primary
  · exact h.primary
  · exact h.primary
  · exact .ite forms_classNameRule forms_fail

theorem formsAt_newExpression (h : Builds self) (ht : t.kind ≠ .endOfFile) :
    FormsAt t (newExpression self n) [] one := by
  refine .note fun _ => .begin ht ((looks_isAt _).quiet.next fun _ => ?_)
  refine .ite forms_skippedExpression ((forms_classReference h).next fun r => ?_)
  cases r with
  | none => exact .pure (List.sublist_append_right [begun _] _)
  | some classRef =>
    have ho : Forms (optionalArguments self n) [] many :=
      (looks_isAt _).quiet.next fun _ => .ite (forms_arguments h) (.pure (.refl _))
    refine ho.next fun list => forms_done (some classRef :: list) trivial rfl fun hw => ?_
    exact ⟨rfl, fun x hx => hw x (List.mem_cons_of_mem _ hx)⟩

/-- `array` is passed over once the parenthesis behind it has been seen. -/
theorem formsAt_longArray {long : Bool} {m : Parse (Option NodeId)} (h : Builds self)
    (hm : FormsAt t m inp one) :
    FormsAt t (do
      if long && (← kindAhead 1) == .openParen then
        advance
        arrayLiteral self n .closeParen ")"
      else m) inp one := by
  intro s xs r s'' hs ht hr
  rw [(looks_kindAhead 1).run_bind] at hr
  split at hr
  · next hk =>
    obtain ⟨_, s', ha, hr'⟩ := run_bind_eq_some hr
    have hnext : s'.stream.current.kind ≠ .endOfFile := by
      cases ha
      have hp : (s.stream.peek 1).kind = .openParen := eq_of_beq (Bool.and_eq_true_iff.mp hk).2
      exact fun he => absurd (hp.symm.trans he) (by decide)
    have hw : Work (s, xs ++ inp) (s', xs ++ inp) := .advance ha
    have hl : FormsAt s'.stream.current (arrayLiteral self n .closeParen ")") inp one :=
      (formsAt_arrayLiteral h hnext).drop (List.nil_sublist _)
    exact .head hw (hl s' xs r s'' (hs.later hw.later) rfl hr')
  · exact hm s xs r s'' hs ht hr

theorem forms_primary (h : Builds self) : Forms (primary self n) [] one := by
  refine fun t => .note fun _ => ?_
  have hname : FormsAt t classNameRule [mark t.start] one :=
    (forms_classNameRule t).drop (List.nil_sublist _)
  split
  · next hk =>
    exact .begin (hk ▸ by decide) (forms_done [] trivial rfl fun _ => rfl)
  · next hk => exact (formsAt_variableVariable h (hk ▸ by decide)).drop (List.nil_sublist _)
  · next hk => exact formsAt_skippedExpression (hk ▸ rfl)
  · next hk =>
    refine .look looks_isAtStaticClosure fun _ _ => .ite (fun _ => ?_) fun _ => ?_
    · exact formsAt_skippedExpression (hk ▸ rfl)
    · exact .begin (hk ▸ by decide) (forms_done [] trivial rfl fun _ => trivial)
  · next hk =>
    obtain ⟨g, hg⟩ := looks_isAtArrowOrMatch
    refine formsAt_longArray h (.look hg fun _ _ => .ite (fun _ => ?_) fun _ => hname)
    exact formsAt_skippedExpression (hk ▸ rfl)
  · exact hname
  · exact hname
  · next hk => exact .begin (hk ▸ by decide) (forms_done [] trivial rfl fun _ => trivial)
  · next hk => exact .begin (hk ▸ by decide) (forms_done [] trivial rfl fun _ => trivial)
  · next hk =>
    refine .begin (hk ▸ by decide) ((forms_bracketed h).next fun e => ?_)
    exact forms_done [e] trivial rfl fun hw => hw e List.mem_cons_self
  · next hk => exact (formsAt_arrayLiteral h (hk ▸ by decide)).drop (List.nil_sublist _)
  · next hk => exact (formsAt_newExpression h (hk ▸ by decide)).drop (List.nil_sublist _)
  · exact (forms_fail t).drop (List.nil_sublist _)

/-! ## What follows a primary expression -/

theorem forms_memberName (h : Builds self) : Forms (memberName self) [] one := by
  refine (forms_identifierOf fun _ hk => hk).bind fun r => ?_
  cases r with
  | some name => exact .pure (.refl _)
  | none =>
    apply looks_token.quiet.next
    intro t
    split
    · exact h.primary
    · exact h.primary
    · exact quiet_advance.next fun _ => forms_bracketed h
    · exact forms_fail

variable {e : NodeId}

theorem forms_member {call : CallForm} {access : AccessForm} {callable nullsafe : Bool}
    (h : Builds self) : Forms (member self n pos e call access callable nullsafe)
      [begun pos, slot (some e)] fun r => begun pos :: one r := by
  apply (forms_memberName h).next
  intro r
  cases r with
  | none => exact .pure (.cons_cons _ (List.sublist_append_right [slot (some e)] _))
  | some name =>
    refine (looks_isAt _).quiet.next fun _ => .ite ?_ ?_
    · refine (forms_arguments h).next fun list => ?_
      refine forms_part (some e :: some name :: list) trivial rfl fun hw => ⟨rfl, fun _ => rfl, ?_⟩
      exact fun x hx => hw x (List.mem_cons_of_mem _ (List.mem_cons_of_mem _ hx))
    · exact forms_part [some e, some name] trivial rfl fun _ => rfl

/-- What is left of an expression after a suffix: itself where there is none. -/
def afterSuffix (pos : Nat) (e : NodeId) : Option (Option NodeId) → List Item
  | none => [begun pos, slot (some e)]
  | some r => begun pos :: one r

theorem Forms.found {m : Parse (Option NodeId)} (h : Forms m inp fun r => begun pos :: one r) :
    Forms (some <$> m) inp (afterSuffix pos e) :=
  .map h

theorem forms_suffix (h : Builds self) :
    Forms (suffix self n pos e) [begun pos, slot (some e)] (afterSuffix pos e) := by
  apply looks_token.quiet.next
  intro t
  split
  · exact quiet_advance.next fun _ => (forms_member h).found
  · exact quiet_advance.next fun _ => (forms_member h).found
  · exact quiet_advance.next fun _ => (looks_isAt _).quiet.next fun _ => (forms_member h).found
  · refine (forms_arguments h).next fun list => .found ?_
    refine forms_part (some e :: list) trivial rfl fun hw => ⟨rfl, nofun, ?_⟩
    exact fun x hx => hw x (List.mem_cons_of_mem _ hx)
  · have hi : Forms (elementIndex self) [] opt :=
      (looks_isAt _).quiet.next fun _ => .ite (.pure (.refl _)) h.expression.opt
    refine quiet_advance.next fun _ => hi.next fun index => quiet_expect.discard.next fun _ => ?_
    refine .found ?_
    cases index with
    | none => exact forms_part [some e] trivial rfl fun _ => rfl
    | some index => exact forms_part [some e, some index] trivial rfl fun _ => rfl
  · refine .ite (quiet_advance.next fun _ => .found ?_) (.pure (.refl _))
    exact forms_part [some e] trivial rfl fun _ => rfl
  · exact .pure (.refl _)

theorem forms_suffixes {bound : Nat} (h : Builds self) :
    Forms (suffixes self bound pos n e) [begun pos, slot (some e)] one := by
  induction n generalizing e with
  | zero => exact forms_outOfSteps
  | succ n ih =>
    apply (forms_suffix h).bind
    intro r
    cases r with
    | none => exact .pure (List.sublist_cons_self _ _)
    | some r =>
      cases r with
      | none => exact .pure (List.sublist_cons_self _ _)
      | some e' => exact ih

/-! ## Operators -/

theorem forms_unaryOf {operator : String} (h : Builds self) :
    Forms (unaryOf self pos operator) [begun pos] one := by
  apply h.unary.next
  intro r
  cases r with
  | none => exact .pure (List.sublist_cons_self _ _)
  | some operand => exact forms_done [some operand] trivial rfl fun _ => rfl

theorem forms_unary (h : Builds self) : Forms (unary self n) [] one := by
  refine fun t => .note fun _ => .ite (fun ht => ?_) fun _ => .ite (fun ht => ?_) fun _ => ?_
  · have hk : t.kind = .operator := eq_of_beq (Bool.and_eq_true_iff.mp ht).1
    exact .begin (hk ▸ by decide) (forms_unaryOf h)
  · refine .begin ?_ (forms_unaryOf h)
    rcases Bool.or_eq_true_iff.mp ht with ht | ht
    · exact ne_endOfFile_of_isWord ht
    · exact ne_endOfFile_of_isWord ht
  · refine .look looks_isAtCast fun s hs => .ite (fun hc => ?_) fun _ => ?_
    · have hk : t.kind = .openParen := by
        simp only [Bool.and_eq_true, beq_iff_eq, hs] at hc
        exact hc.1.1.1
      refine .begin (hk ▸ by decide) (looks_token.quiet.next fun _ => ?_)
      exact quiet_advance.next fun _ => quiet_advance.next fun _ => forms_unaryOf h
    · exact .first (h.primary t) (.pure (.refl _)) fun e => forms_suffixes h

theorem forms_operators {level : Nat} (h : Builds self) :
    Forms (operators self level pos n e) [begun pos, slot (some e)] one := by
  induction n generalizing e with
  | zero => exact forms_outOfSteps
  | succ n ih =>
    apply looks_token.quiet.next
    intro t
    split
    · next operator own _ =>
      have hr : Forms (rightOperand self operator own) [] one :=
        .ite (forms_classReference h) (h.operand _)
      refine .ite (.pure (List.sublist_cons_self _ _)) (quiet_advance.next fun _ => hr.next fun r => ?_)
      cases r with
      | none => exact .pure (List.sublist_append_right [begun pos, slot (some e)] _)
      | some right =>
        have hw : Forms (node (.binary (some e) operator (some right)) pos)
            (begun pos :: many [some e, some right]) fun i => [begun pos, slot (some i), begun pos] :=
          forms_node _ trivial rfl fun _ => ⟨rfl, rfl⟩
        exact hw.bind fun whole => ih.drop (.cons_cons _ (.cons_cons _ (List.nil_sublist _)))
    · exact .pure (List.sublist_cons_self _ _)

theorem forms_operand {level : Nat} (h : Builds self) : Forms (operand self n level) [] one :=
  fun t => .note fun _ => .first (h.unary t) (.pure (.refl _)) fun _ => forms_operators h

theorem forms_conditional (h : Builds self) : Forms (conditional self) [] one := by
  refine fun t => .note fun _ => .first (h.operand 0 t) (.pure (.refl _)) fun condition => ?_
  have ht : Forms (whenTrue self) [] opt :=
    (looks_isAt _).quiet.next fun _ => .ite (.pure (.refl _)) h.expression.opt
  refine quiet_accept.next fun _ => .ite (ht.next fun whenTrue => ?_)
    (.pure (List.sublist_cons_self _ _))
  refine quiet_expect.discard.next fun _ => h.expression.next fun whenFalse => ?_
  cases whenTrue with
  | none => exact forms_done [some condition, whenFalse] trivial rfl fun hw => ⟨rfl, hw _ (by simp)⟩
  | some e =>
    exact forms_done [some condition, some e, whenFalse] trivial rfl fun hw => ⟨rfl, hw _ (by simp)⟩

theorem forms_assignment (h : Builds self) : Forms (assignment self) [] one := by
  refine fun t => .note fun _ => .first (forms_conditional h t) (.pure (.refl _)) fun target => ?_
  refine looks_token.quiet.next fun t => quiet_accept.next fun _ => .ite ?_ (.ite ?_ ?_)
  · refine quiet_accept.next fun byRef => h.expression.next fun value => ?_
    exact forms_done [some target, value] trivial rfl fun hw => ⟨rfl, hw _ (by simp)⟩
  · refine quiet_advance.next fun _ => h.expression.next fun value => ?_
    exact forms_done [some target, value] trivial rfl fun hw => ⟨rfl, hw _ (by simp)⟩
  · exact .pure (List.sublist_cons_self _ _)

theorem forms_expression (h : Builds self) : Forms (expression self) [] one :=
  .nested (.pure (.refl _)) (forms_assignment h) (.refl _)

theorem forms_initialValue (h : Builds self) : Forms (initialValue self) [] opt :=
  quiet_accept.next fun _ => .ite h.expression.opt (.pure (.refl _))

end PhpAtlas.Grammar
