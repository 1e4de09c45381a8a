import PhpAtlas.Proofs.Brackets.Rules

/-! # Brackets in expressions

Every rule of an expression closes the brackets that it opens. Only an opaque
expression that runs up to the end of the file does not, and nothing that stands
behind an expression is found there.
-/

namespace PhpAtlas.Grammar

variable {n : Nat} {t : Token} {strict : Bool}

/-! ## Type hints -/

theorem isPlain_of_hintOfToken? {hint : TypeHint} (h : hintOfToken? t = some hint) :
    t.kind.isPlain = true := by
  unfold hintOfToken? at h
  split at h
  · next hk => rw [hk]; rfl
  · next hk => rw [hk]; rfl
  · next hk => rw [hk]; rfl
  · next hk => rw [hk]; rfl
  · cases h

theorem moves_singleHint : Moves strict (some []) singleHint found := by
  refine fun t => .token ?_
  split
  · next h => exact .plain (isPlain_of_hintOfToken? h) (.pure fun _ => id)
  · exact (moves_report.bind fun _ => .pure nofun) t

theorem moves_joinedHints : Moves strict (some []) (joinedHints n) found := by
  induction n with
  | zero => exact moves_outOfSteps
  | succ n ih =>
    refine .look (looks_kindAhead 1) fun next t => .look (looks_isAt _) fun s hs => .ite (fun h => ?_)
      fun _ => .pure fun _ => id
    have ht : t.kind = .ampersand := hs ▸ eq_of_beq (Bool.and_eq_true_iff.mp h).1
    refine .plain (ht ▸ rfl) (moves_singleHint.bind ?_)
    rintro (_ | hint)
    · exact .pure nofun
    · apply ih.bind
      rintro (_ | rest)
      · exact .pure nofun
      · exact .pure fun _ => id

theorem moves_intersectionHint : Moves strict (some []) (intersectionHint n) found := by
  apply moves_singleHint.bind
  rintro (_ | first)
  · exact .pure nofun
  · apply moves_joinedHints.bind
    rintro (_ | rest)
    · exact .pure nofun
    · exact .pure fun _ => id

theorem moves_memberHint : Moves strict (some []) (memberHint n) found := by
  apply (moves_accept_opening rfl).bind
  rintro (_ | _)
  · exact moves_intersectionHint
  · apply moves_intersectionHint.next
    rintro (_ | inner)
    · exact .pure nofun
    · refine .closing rfl ?_
      exact .pure fun _ => id

theorem moves_unitedHints {bound : Nat} : Moves strict (some []) (unitedHints bound n) found := by
  induction n with
  | zero => exact moves_outOfSteps
  | succ n ih =>
    refine (even_accept rfl).next fun _ => .ite (fun _ => moves_memberHint.bind ?_)
      fun _ => .pure fun _ => id
    rintro (_ | hint)
    · exact .pure nofun
    · apply ih.bind
      rintro (_ | rest)
      · exact .pure nofun
      · exact .pure fun _ => id

theorem moves_hint : Moves strict (some []) (hint n) found := by
  refine (even_accept rfl).next fun _ => .ite (fun _ => moves_singleHint.bind ?_) fun _ => ?_
  · rintro (_ | inner)
    · exact .pure nofun
    · exact .pure fun _ => id
  · apply moves_memberHint.bind
    rintro (_ | first)
    · exact .pure nofun
    · apply moves_unitedHints.bind
      rintro (_ | rest)
      · exact .pure nofun
      · exact .pure fun _ => id

theorem even_hintAfterColon : Even strict (hintAfterColon n) :=
  (even_accept rfl).next fun _ => .ite (fun _ => Moves.even moves_hint) fun _ => .pure fun _ => id

/-! ## Names -/

theorem isPlain_of_isName {kind : TokenKind} (h : kind.isName = true) : kind.isPlain = true := by
  cases kind <;> first | rfl | cases h

theorem isPlain_of_isMemberName {kind : TokenKind} (h : kind.isMemberName = true) :
    kind.isPlain = true := by
  cases kind <;> first | rfl | cases h

theorem moves_classNameRule : Moves strict (some []) classNameRule found := by
  refine fun t => .token (.ite (fun _ => moves_fail t) fun h => ?_)
  exact .plain (isPlain_of_isName (by simpa using h)) moves_done

theorem even_identifierOf {fits : TokenKind → Bool}
    (h : ∀ kind, fits kind = true → kind.isMemberName = true) : Even strict (identifierOf fits) := by
  refine fun t => .token (.ite (fun hf => ?_) fun _ => .pure fun _ => id)
  exact .plain (isPlain_of_isMemberName (h _ hf)) (Moves.even moves_done)

/-! ## Expressions -/

/-- The rules of expressions that a rule is run with close their brackets. -/
structure ClosesExpressions (rules : Rules) : Prop where
  expression : Moves false (some []) (rules .expression) found
  operand : ∀ level, Moves false (some []) (rules (.operand level)) found
  unary : Moves false (some []) (rules .unary) found
  primary : Moves false (some []) (rules .primary) found

variable {self : Rules} {kind : TokenKind} {spelling : String} {start : Nat} {e : NodeId}

theorem moves_bracketed (h : ClosesExpressions self) (hk : kind.isCloser = true) :
    Moves false (some [kind]) (bracketed self kind spelling) found := by
  apply h.expression.next
  rintro (_ | e)
  · exact (inherited_never.discard inherited_never.expect).bind fun _ => .pure nofun
  · refine .closing hk ?_
    exact .pure fun _ => id

theorem moves_variableVariable (h : ClosesExpressions self) (ht : t.kind = .dollar) :
    MovesAt t false (some []) (variableVariable self) found := by
  have hv : Moves false (some []) (variableTarget self) found := by
    apply (moves_accept_opening rfl).bind
    rintro (_ | _)
    · exact h.primary
    · exact moves_bracketed h rfl
  refine .token (.plain (ht ▸ rfl) ((Moves.even hv).next fun _ => moves_done))

theorem even_arrayEntry (h : ClosesExpressions self) : Even false (arrayEntry self e) := by
  refine (even_accept rfl).next fun _ => .ite (fun _ => ?_) fun _ => .pure fun _ => id
  refine (even_accept rfl).discard.next fun _ => (Moves.even h.expression).next fun _ => ?_
  exact .pure fun _ => id

theorem even_arrayEntries (h : ClosesExpressions self) : Even false (arrayEntries self kind n) := by
  induction n with
  | zero => exact moves_outOfSteps
  | succ n ih =>
    refine .look (looks_isAtEndOr _) fun _ => .ite (fun _ => .pure fun _ => id) fun _ => ?_
    refine (even_accept rfl).next fun _ => .ite (fun _ => ih) fun _ => ?_
    refine (even_accept rfl).discard.next fun _ => (even_accept rfl).discard.next fun _ => ?_
    apply (Moves.even h.expression).next
    rintro (_ | first)
    · exact .pure fun _ => id
    · refine (even_arrayEntry h).next fun _ => (even_accept rfl).next fun _ => ?_
      exact .ite (fun _ => ih.next fun _ => .pure fun _ => id) fun _ => .pure fun _ => id

/-- The closing bracket is that of the opening one, which is the current token. -/
theorem movesAt_arrayLiteral (h : ClosesExpressions self) (ht : t.kind.closer? = some kind)
    (hk : kind.isCloser = true) : MovesAt t false (some []) (arrayLiteral self n kind spelling) found := by
  refine .token (.opening ht ((even_arrayEntries h).next fun _ => .closing hk moves_done))

theorem even_argumentName : Even strict argumentName := by
  refine fun t s _ => .look looks_token (.look (looks_kindAhead 1) ?_)
  split
  · next h =>
    obtain ⟨hm, hn⟩ := Bool.and_eq_true_iff.mp h
    refine .plain (isPlain_of_isMemberName hm) fun s' hs => ?_
    have hk : s'.stream.current.kind = .colon := hs ▸ eq_of_beq hn
    exact movesAt_plain (hk ▸ rfl) s' rfl
  · exact .pure fun _ => id

theorem even_argumentList (h : ClosesExpressions self) : Even false (argumentList self n) := by
  induction n with
  | zero => exact moves_outOfSteps
  | succ n ih =>
    refine .look (looks_isAtEndOr _) fun _ => .ite (fun _ => .pure fun _ => id) fun _ => ?_
    refine even_argumentName.next fun _ => (even_accept rfl).discard.next fun _ => ?_
    apply (Moves.even h.expression).next
    rintro (_ | argument)
    · exact .pure fun _ => id
    · refine (even_accept rfl).next fun _ => .ite (fun _ => ?_) fun _ => .pure fun _ => id
      exact ih.next fun _ => .pure fun _ => id

theorem even_arguments (h : ClosesExpressions self) : Even false (arguments self n) := by
  refine .opening rfl fun t s _ => .look (looks_isAt _) (.look (looks_kindAhead 1) ?_)
  split
  · next h =>
    obtain ⟨hm, hn⟩ := Bool.and_eq_true_iff.mp h
    refine .plain (eq_of_beq hm ▸ rfl) fun s' hs => ?_
    have hk : s'.stream.current.kind = .closeParen := hs ▸ eq_of_beq hn
    exact .closing hk rfl fun s' _ => .pure fun _ => id
  · refine (even_argumentList h).next (fun _ => ?_) _ s rfl
    refine .closing rfl ?_
    exact .pure fun _ => id

theorem moves_classReference (h : ClosesExpressions self) :
    Moves false (some []) (classReference self) found := by
  refine fun t => .token ?_
  split
  · exact h.primary t
  · exact h.primary t
  · exact h.primary t
  · exact h.primary t
  · exact MovesAt.ite (fun _ => moves_classNameRule t) fun _ => moves_fail t

theorem movesAt_newExpression (h : ClosesExpressions self) (ht : t.kind.isPlain = true) :
    MovesAt t false (some []) (newExpression self n) found := by
  have ho : Even false (optionalArguments self n) :=
    .look (looks_isAt _) fun _ => .ite (fun _ => even_arguments h) fun _ => .pure fun _ => id
  refine .token (.plain ht fun u => .look (looks_isAt _) fun s hs => .ite (fun hc => ?_) fun _ => ?_)
  · refine movesAt_skippedExpression ?_
    simp [opensOpaque, ← hs, eq_of_beq hc]
  · apply (moves_classReference h).bind
    rintro (_ | classRef)
    · exact .pure fun _ hk => by cases hk
    · exact ho.next fun _ => moves_done

/-- Only the words before an arrow function and a `match` pass for such. -/
theorem opensOpaque_of_isAtArrowOrMatch {a b : Bool}
    (h : (if t.isWord "fn" then a else t.isWord "match" && b) = true) : opensOpaque t = true := by
  split at h
  · next hw => simp [opensOpaque, hw]
  · simp [opensOpaque, (Bool.and_eq_true_iff.mp h).1]

theorem moves_primary (h : ClosesExpressions self) : Moves false (some []) (primary self n) found := by
  refine fun t => .token ?_
  split
  · next ht => exact .plain (ht ▸ rfl) moves_done
  · next ht => exact moves_variableVariable h ht
  · next ht => exact movesAt_skippedExpression (by simp [opensOpaque, ht])
  · next ht =>
    refine .look looks_isAtStaticClosure fun _ _ => .ite (fun _ => ?_) fun _ => ?_
    · exact movesAt_skippedExpression (by simp [opensOpaque, ht])
    · exact .plain (ht ▸ rfl) moves_done
  · next ht =>
    refine fun s hs => .look (looks_kindAhead 1) ?_
    split
    · next h' =>
      refine .plain (hs ▸ ht ▸ rfl) fun s' hs' => ?_
      have hk : s'.stream.current.kind = .openParen :=
        hs' ▸ eq_of_beq (Bool.and_eq_true_iff.mp h').2
      exact movesAt_arrayLiteral h (hk ▸ rfl) rfl s' rfl
    · refine .look looks_isAtArrowOrMatch_eq (.ite (fun hw => ?_) fun _ => ?_)
      · exact movesAt_skippedExpression (hs ▸ opensOpaque_of_isAtArrowOrMatch hw) s hs
      · exact moves_classNameRule t s hs
  · exact moves_classNameRule t
  · exact moves_classNameRule t
  · next ht => exact .plain (ht ▸ rfl) moves_done
  · next ht => exact .plain (ht ▸ rfl) moves_done
  · next ht =>
    refine .opening (congrArg TokenKind.closer? ht) ?_
    exact (Moves.even (moves_bracketed h rfl)).bind fun _ => moves_done
  · next ht => exact movesAt_arrayLiteral h (ht ▸ rfl) rfl
  · next ht => exact movesAt_newExpression h (ht ▸ rfl)
  · exact moves_fail t

theorem moves_memberName (h : ClosesExpressions self) :
    Moves false (some []) (memberName self) found := by
  apply (even_identifierOf fun _ => id).next
  rintro (_ | name)
  · refine fun t => .token ?_
    split
    · exact h.primary t
    · exact h.primary t
    · next ht => exact .opening (congrArg TokenKind.closer? ht) (moves_bracketed h rfl)
    · exact moves_fail t
  · exact .pure fun _ => id

theorem moves_member {call : CallForm} {access : AccessForm} {callable nullsafe : Bool}
    (h : ClosesExpressions self) :
    Moves false (some []) (member self n start e call access callable nullsafe) found := by
  apply (moves_memberName h).bind
  rintro (_ | name)
  · exact .pure nofun
  · refine .look (looks_isAt _) fun _ => .ite (fun _ => ?_) fun _ => moves_done
    exact (even_arguments h).next fun _ => moves_done

/-- No more is awaited after a suffix, unless it is one that fails. -/
def foundSuffix : Option (Option NodeId) → Option (List TokenKind)
  | none => some []
  | some r => found r

theorem moves_suffix (h : ClosesExpressions self) :
    Moves false (some []) (suffix self n start e) foundSuffix := by
  have hi : Even false (elementIndex self) :=
    .look (looks_isAt _) fun _ => .ite (fun _ => .pure fun _ => id) fun _ => Moves.even h.expression
  have hd {payload : Payload (Option NodeId)} :
      Moves false (some []) (some <$> done payload start) foundSuffix :=
    .map moves_done
  refine fun t => .token ?_
  split
  · next ht => exact .plain (ht ▸ rfl) (.map (moves_member h))
  · next ht => exact .plain (ht ▸ rfl) (.map (moves_member h))
  · next ht => exact .plain (ht ▸ rfl) (.look (looks_isAt _) fun _ => .map (moves_member h))
  · exact ((even_arguments h).next fun _ => hd) t
  · next ht =>
    refine .opening (congrArg TokenKind.closer? ht) (hi.next fun _ => ?_)
    exact .closing rfl hd
  · next ht => exact .ite (fun _ => .plain (ht ▸ rfl) hd) fun _ => .pure fun _ => id
  · exact .pure fun _ => id

theorem moves_suffixes {bound : Nat} (h : ClosesExpressions self) :
    Moves false (some []) (suffixes self bound start n e) found := by
  induction n generalizing e with
  | zero => exact moves_outOfSteps
  | succ n ih =>
    apply (moves_suffix h).bind
    rintro (_ | _ | e')
    · exact .pure fun _ => id
    · exact .pure nofun
    · exact ih

theorem moves_unaryOf {operator : String} (h : ClosesExpressions self) :
    Moves false (some []) (unaryOf self start operator) found := by
  apply h.unary.bind
  rintro (_ | operand)
  · exact .pure nofun
  · exact moves_done

theorem moves_unary (h : ClosesExpressions self) : Moves false (some []) (unary self n) found := by
  refine fun t => .token (.ite (fun hk => ?_) fun _ => .ite (fun hk => ?_) fun _ => ?_)
  · have ht : t.kind = .operator := eq_of_beq (Bool.and_eq_true_iff.mp hk).1
    exact .plain (ht ▸ rfl) (moves_unaryOf h)
  · have ht : t.kind = .identifier := by
      rcases Bool.or_eq_true_iff.mp hk with hk | hk
      · exact eq_of_beq (Bool.and_eq_true_iff.mp hk).1
      · exact eq_of_beq (Bool.and_eq_true_iff.mp hk).1
    exact .plain (ht ▸ rfl) (moves_unaryOf h)
  · refine fun s hs => .look looks_isAtCast ?_
    split
    · next hcast =>
      simp only [Bool.and_eq_true, beq_iff_eq] at hcast
      obtain ⟨⟨⟨ho, hi⟩, -⟩, hc⟩ := hcast
      refine .opening (congrArg TokenKind.closer? ho) fun s₁ h₁ => .look looks_token ?_
      have hi₁ : s₁.stream.current.kind = .identifier := h₁ ▸ hi
      refine .plain (hi₁ ▸ rfl) fun s₂ h₂ => ?_
      have hc₂ : s₂.stream.current.kind = .closeParen := by
        rw [h₂, h₁]
        exact hc
      exact .closing hc₂ rfl fun s₃ _ => moves_unaryOf h _ s₃ rfl
    · refine h.primary.bind ?_ _ s rfl
      rintro (_ | e)
      · exact .pure nofun
      · exact moves_suffixes h

theorem isPlain_of_binaryOperator? {operator : String × Nat} (h : binaryOperator? t = some operator) :
    t.kind.isPlain = true := by
  unfold binaryOperator? at h
  split at h
  · next hk => rw [hk]; rfl
  · next hk => rw [hk]; rfl
  · next hk => rw [hk]; rfl
  · next hk => rw [hk]; rfl
  · cases h

theorem moves_operators {level : Nat} (h : ClosesExpressions self) :
    Moves false (some []) (operators self level start n e) found := by
  induction n generalizing e with
  | zero => exact moves_outOfSteps
  | succ n ih =>
    refine fun t => .token ?_
    split
    · next ho =>
      refine .ite (fun _ => .pure fun _ => id) fun _ => .plain (isPlain_of_binaryOperator? ho) ?_
      have hr {operator : String} {own : Nat} :
          Moves false (some []) (rightOperand self operator own) found :=
        .ite (fun _ => moves_classReference h) fun _ => h.operand _
      apply hr.bind
      rintro (_ | right)
      · exact .pure nofun
      · exact even_node.next fun _ => ih
    · exact .pure fun _ => id

theorem moves_operand {level : Nat} (h : ClosesExpressions self) :
    Moves false (some []) (operand self n level) found := by
  refine .look looks_token fun _ => h.unary.bind ?_
  rintro (_ | left)
  · exact .pure nofun
  · exact moves_operators h

theorem moves_conditional (h : ClosesExpressions self) :
    Moves false (some []) (conditional self) found := by
  have ht : Even false (whenTrue self) :=
    .look (looks_isAt _) fun _ => .ite (fun _ => .pure fun _ => id) fun _ => Moves.even h.expression
  refine .look looks_token fun _ => (h.operand 0).bind ?_
  rintro (_ | condition)
  · exact .pure nofun
  · refine (even_accept rfl).next fun _ => .ite (fun _ => ?_) fun _ => .pure fun _ => id
    refine ht.next fun _ => (Moves.discard (even_expect rfl)).next fun _ => ?_
    exact (Moves.even h.expression).next fun _ => moves_done

theorem moves_assignment (h : ClosesExpressions self) :
    Moves false (some []) (assignment self) found := by
  refine .look looks_token fun _ => (moves_conditional h).bind ?_
  rintro (_ | target)
  · exact .pure nofun
  · refine fun t => .token (.accept rfl ?_ (.ite nofun fun _ => .ite (fun ho => ?_) fun _ => ?_))
    · refine (even_accept rfl).next fun _ => (Moves.even h.expression).next fun _ => moves_done
    · have ht : t.kind = .operator := eq_of_beq (Bool.and_eq_true_iff.mp ho).1
      exact .plain (ht ▸ rfl) ((Moves.even h.expression).next fun _ => moves_done)
    · exact .pure fun _ => id

theorem moves_expression (h : ClosesExpressions self) :
    Moves false (some []) (expression self) found :=
  .nested (.pure nofun) (moves_assignment h)

theorem even_initialValue (h : ClosesExpressions self) : Even false (initialValue self) :=
  (even_accept rfl).next fun _ => .ite (fun _ => Moves.even h.expression) fun _ => .pure fun _ => id

end PhpAtlas.Grammar
