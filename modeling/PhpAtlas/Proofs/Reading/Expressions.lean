import PhpAtlas.Grammar.Expression
import PhpAtlas.Proofs.Reading.Fits

/-! # Expressions come to an end

A loop needs no more steps than there are tokens ahead, since each round reads
a token or is the last one. A rule that goes down to another one without
reading a token goes to a rule that stands below it.
-/

namespace PhpAtlas.Grammar

variable {t : Token} {k n : Nat}

/-! ## Type hints -/

theorem fits_singleHint : Fits k singleHint := by
  intro t
  refine .token ?_
  split
  · exact (fits_advance.bind fun _ => .pure) t
  · exact (fits_report.bind fun _ => .pure) t

theorem turns_joinedHints : Turns k fun (_ : Unit) n => joinedHints n := by
  refine .of_round fun _ => .look (looks_kindAhead 1) fun next => .isAt fun t => ?_
  refine .ite (fun h => ?_) fun _ => .leave .pure
  have ht : t.kind = .ampersand := eq_of_beq (Bool.and_eq_true_iff.mp h).1
  refine .advance (ht ▸ by decide) (.next (fun _ => fits_singleHint) fun r => ?_)
  cases r with
  | none => exact .leave .pure
  | some hint => exact .again (i := ()) (Option.map (hint :: ·))

theorem fits_joinedHints (hn : k < n) : Fits k (joinedHints n) :=
  turns_joinedHints.fits hn (i := ())

theorem fits_intersectionHint (hn : k < n) : Fits k (intersectionHint n) := by
  apply fits_singleHint.bind
  intro first
  cases first with
  | none => exact .pure
  | some first =>
    apply (fits_joinedHints hn).bind
    intro rest
    cases rest with
    | none => exact .pure
    | some rest => exact .pure

theorem fits_memberHint (hn : k < n) : Fits k (memberHint n) := by
  refine fits_accept.bind fun b => .ite (fun _ => ?_) fun _ => fits_intersectionHint hn
  apply (fits_intersectionHint hn).bind
  intro r
  cases r with
  | none => exact .pure
  | some inner => exact fits_expect.discard.bind fun _ => .pure

theorem turns_unitedHints {bound : Nat} (hb : k < bound) :
    Turns k fun (_ : Unit) n => unitedHints bound n := by
  refine .of_round fun _ => .accept (by decide) ?_ (.leave .pure)
  refine .next (fun _ => fits_memberHint (by omega)) fun r => ?_
  cases r with
  | none => exact .leave .pure
  | some hint => exact .again (i := ()) (Option.map (hint :: ·))

theorem fits_unitedHints {bound : Nat} (hb : k < bound) (hn : k < n) :
    Fits k (unitedHints bound n) :=
  (turns_unitedHints hb).fits hn (i := ())

theorem fits_hint (hn : k < n) : Fits k (hint n) := by
  refine fits_accept.bind fun b => .ite (fun _ => ?_) fun _ => ?_
  · exact fits_singleHint.bind fun _ => .pure
  · apply (fits_memberHint hn).bind
    intro first
    cases first with
    | none => exact .pure
    | some first =>
      apply (fits_unitedHints hn hn).bind
      intro rest
      cases rest with
      | none => exact .pure
      | some rest => exact .pure

theorem fits_hintAfterColon (hn : k < n) : Fits k (hintAfterColon n) :=
  fits_accept.bind fun _ => .ite (fun _ => fits_hint hn) fun _ => .pure

/-! ## Names and skipped runs -/

theorem fits_classNameRule : Fits k classNameRule := by
  intro t
  refine .token ?_
  refine Fits.ite (fun _ => fits_fail) (fun _ => ?_) t
  exact fits_advance.bind fun _ => fits_done

theorem fits_identifierOf (fits : TokenKind → Bool) : Fits k (identifierOf fits) := by
  intro t
  refine .token ?_
  refine Fits.ite (fun _ => ?_) (fun _ => .pure) t
  exact fits_advance.bind fun _ => fits_done

theorem turns_skipRun : Turns k fun depth n => skipRun n depth := by
  refine .of_round fun depth => .token fun t => ?_
  by_cases ht : t.kind = .endOfFile
  · rw [ht]
    exact .leave .pure
  · have step (d : Nat) : RoundFrom k (fun depth n => skipRun n depth) (At t)
        fun n => advance >>= fun _ => skipRun n d :=
      .advance ht .goOn
    split
    · exact .leave .pure
    all_goals
      first
      | exact step _
      | exact .ite (fun _ => .leave .pure) fun _ => step _

theorem fits_skipRun {depth : Nat} (hn : k < n) : Fits k (skipRun n depth) :=
  turns_skipRun.fits hn (i := depth)

theorem fits_skippedExpression {start : Nat} (hn : k < n) : Fits k (skippedExpression n start) :=
  (fits_skipRun hn).bind fun _ => fits_done

theorem fits_isAtArrowOrMatch : Fits k isAtArrowOrMatch :=
  looks_isAtArrowOrMatch.choose_spec.fits

/-! ## Lists of expressions -/

variable {self : Rules}

theorem fits_bracketed {closing : TokenKind} {spelling : String} (he : Fits k (self .expression)) :
    Fits k (bracketed self closing spelling) :=
  he.bind fun _ => fits_expect.discard.bind fun _ => .pure

theorem fits_variableTarget (he : Fits k (self .expression)) (hp : Fits k (self .primary)) :
    Fits k (variableTarget self) :=
  fits_accept.bind fun _ => .ite (fun _ => fits_bracketed he) fun _ => hp

theorem fitsAt_variableVariable (ht : t.kind ≠ .endOfFile)
    (he : 0 < k → Fits (k - 1) (self .expression)) (hp : 0 < k → Fits (k - 1) (self .primary)) :
    FitsAt t k (variableVariable self) :=
  .token (.advance ht fun hk => (fits_variableTarget (he hk) (hp hk)).bind fun _ => fits_done)

theorem fits_arrayEntry {first : NodeId} (he : Fits k (self .expression)) :
    Fits k (arrayEntry self first) := by
  refine fits_accept.bind fun _ => .ite (fun _ => ?_) fun _ => .pure
  exact fits_accept.discard.bind fun _ => he.bind fun _ => .pure

theorem turns_arrayEntries {closing : TokenKind} (he : Fits k (self .expression)) :
    Turns k fun (_ : Unit) n => arrayEntries self closing n := by
  refine .of_round fun _ => .bind (looks_isAtEndOr _).fits fun _ => ?_
  refine .ite (fun _ => .leave .pure) fun _ => .accept (by decide) (.goOn (i := ())) ?_
  refine .bind fits_accept.discard fun _ => .bind fits_accept.discard fun _ => .bind he fun r => ?_
  cases r with
  | none => exact .leave .pure
  | some first =>
    refine .bind (fits_arrayEntry he) fun entry => ?_
    exact .accept (by decide) (.again (i := ()) (entry :: ·)) (.leave .pure)

theorem fits_arrayEntries {closing : TokenKind} (he : Fits k (self .expression)) (hn : k < n) :
    Fits k (arrayEntries self closing n) :=
  (turns_arrayEntries he).fits hn (i := ())

theorem fits_arrayLiteral {closing : TokenKind} {spelling : String}
    (he : Fits k (self .expression)) (hn : k < n) :
    Fits k (arrayLiteral self n closing spelling) := by
  refine fun t => .token ((fits_advance.bind fun _ => ?_) t)
  exact (fits_arrayEntries he hn).bind fun _ => fits_expect.discard.bind fun _ => fits_done

theorem fitsAt_arrayLiteral {closing : TokenKind} {spelling : String} (ht : t.kind ≠ .endOfFile)
    (he : 0 < k → Fits (k - 1) (self .expression)) (hn : k < n) :
    FitsAt t k (arrayLiteral self n closing spelling) :=
  .token (.advance ht fun hk =>
    (fits_arrayEntries (he hk) (by omega)).bind fun _ =>
      fits_expect.discard.bind fun _ => fits_done)

theorem fits_argumentName : Fits k argumentName := by
  refine looks_token.fits.bind fun _ => (looks_kindAhead 1).fits.bind fun _ => ?_
  exact .ite (fun _ => fits_advance.bind fun _ => fits_advance) fun _ => .pure

theorem turns_argumentList (he : Fits k (self .expression)) :
    Turns k fun (_ : Unit) n => argumentList self n := by
  refine .of_round fun _ => .bind (looks_isAtEndOr _).fits fun _ => ?_
  refine .ite (fun _ => .leave .pure) fun _ => .bind fits_argumentName fun _ => ?_
  refine .bind fits_accept.discard fun _ => .bind he fun r => ?_
  cases r with
  | none => exact .leave .pure
  | some argument =>
    exact .accept (by decide) (.again (i := ()) (some argument :: ·)) (.leave .pure)

theorem fits_argumentList (he : Fits k (self .expression)) (hn : k < n) :
    Fits k (argumentList self n) :=
  (turns_argumentList he).fits hn (i := ())

theorem fits_arguments (he : Fits k (self .expression)) (hn : k < n) :
    Fits k (arguments self n) := by
  refine fits_expect.discard.bind fun _ => (looks_isAt _).fits.bind fun _ => ?_
  refine (looks_kindAhead 1).fits.bind fun _ => .ite (fun _ => ?_) fun _ => ?_
  · exact fits_advance.bind fun _ => fits_advance.bind fun _ => .pure
  · refine (fits_argumentList he hn).bind fun _ => ?_
    exact fits_expect.discard.bind fun _ => .pure

theorem spendsAt_arguments (ht : t.kind = .openParen) (he : 0 < k → Fits (k - 1) (self .expression))
    (hn : k < n) : SpendsAt t k (arguments self n) := by
  refine (spendsAt_expect ht (by decide)).map.bind fun hk _ => ?_
  refine (looks_isAt _).fits.bind fun _ => (looks_kindAhead 1).fits.bind fun _ => ?_
  refine .ite (fun _ => ?_) fun _ => ?_
  · exact fits_advance.bind fun _ => fits_advance.bind fun _ => .pure
  · refine (fits_argumentList (he hk) (by omega)).bind fun _ => ?_
    exact fits_expect.discard.bind fun _ => .pure

/-! ## Primary expressions -/

theorem fits_classReference (hp : Fits k (self .primary)) : Fits k (classReference self) := by
  apply looks_token.fits.bind
  intro t
  split
  · exact hp
  · exact hp
  · exact hp
  · exact hp
  · exact .ite (fun _ => fits_classNameRule) fun _ => fits_fail

theorem fits_optionalArguments (he : Fits k (self .expression)) (hn : k < n) :
    Fits k (optionalArguments self n) :=
  (looks_isAt _).fits.bind fun _ => .ite (fun _ => fits_arguments he hn) fun _ => .pure

theorem fitsAt_newExpression (ht : t.kind ≠ .endOfFile)
    (he : 0 < k → Fits (k - 1) (self .expression)) (hp : 0 < k → Fits (k - 1) (self .primary))
    (hn : k < n) : FitsAt t k (newExpression self n) := by
  refine .token (.advance ht fun hk => ?_)
  refine (looks_isAt _).fits.bind fun _ => .ite (fun _ => ?_) fun _ => ?_
  · exact fits_skippedExpression (by omega)
  · apply (fits_classReference (hp hk)).bind
    intro r
    cases r with
    | none => exact .pure
    | some classRef =>
      exact (fits_optionalArguments (he hk) (by omega)).bind fun _ => fits_done

theorem fits_primary (he : 0 < k → Fits (k - 1) (self .expression))
    (hp : 0 < k → Fits (k - 1) (self .primary)) (hn : k < n) : Fits k (primary self n) := by
  refine fun t => .token ?_
  by_cases ht : t.kind = .endOfFile
  · rw [ht]
    exact fits_fail t
  · split
    · exact .advance ht fun _ => fits_done
    · exact fitsAt_variableVariable ht he hp
    · exact fits_skippedExpression hn t
    · refine (looks_isAtStaticClosure.fits.bind fun _ => .ite (fun _ => ?_) fun _ => ?_) t
      · exact fits_skippedExpression hn
      · exact fits_advance.bind fun _ => fits_done
    · refine .look (looks_kindAhead 1) fun _ _ => ?_
      split
      · exact .advance ht fun hk => fits_arrayLiteral (he hk) (by omega)
      · refine (fits_isAtArrowOrMatch.bind fun _ => .ite (fun _ => ?_) fun _ => ?_) t
        · exact fits_skippedExpression hn
        · exact fits_classNameRule
    · exact fits_classNameRule t
    · exact fits_classNameRule t
    · exact .advance ht fun _ => fits_done
    · exact .advance ht fun _ => fits_done
    · exact .advance ht fun hk => (fits_bracketed (he hk)).bind fun _ => fits_done
    · exact fitsAt_arrayLiteral ht he hn
    · exact fitsAt_newExpression ht he hp hn
    · exact fits_fail t

/-! ## What follows a primary expression -/

theorem fits_memberName (he : Fits k (self .expression)) (hp : Fits k (self .primary)) :
    Fits k (memberName self) := by
  apply (fits_identifierOf _).bind
  intro r
  cases r with
  | some name => exact .pure
  | none =>
    apply looks_token.fits.bind
    intro t
    split
    · exact hp
    · exact hp
    · exact fits_advance.bind fun _ => fits_bracketed he
    · exact fits_fail

theorem fits_member {start : Nat} {target : NodeId} {call : CallForm} {access : AccessForm}
    {callable nullsafe : Bool} (he : Fits k (self .expression)) (hp : Fits k (self .primary))
    (hn : k < n) : Fits k (member self n start target call access callable nullsafe) := by
  apply (fits_memberName he hp).bind
  intro r
  cases r with
  | none => exact .pure
  | some name =>
    refine (looks_isAt _).fits.bind fun _ => .ite (fun _ => ?_) fun _ => fits_done
    exact (fits_arguments he hn).bind fun _ => fits_done

theorem fits_elementIndex (he : Fits k (self .expression)) : Fits k (elementIndex self) :=
  (looks_isAt _).fits.bind fun _ => .ite (fun _ => .pure) fun _ => he

/-- A suffix that is there takes at least one token. -/
theorem yields_suffix {start : Nat} {e : NodeId} {s : State}
    (he : 0 < k → Fits (k - 1) (self .expression)) (hp : 0 < k → Fits (k - 1) (self .primary))
    (hn : k < n) (hs : Ready k s) :
    Yields (suffix self n start e) s fun r s' =>
      Later s s' ∧ (r.isSome = true → s'.stream.left < s.stream.left) := by
  have spends {m : Parse (Option (Option NodeId))} (h : SpendsAt s.stream.current k m) :
      Yields m s fun r s' => Later s s' ∧ (r.isSome = true → s'.stream.left < s.stream.left) :=
    (h s hs rfl).mono fun _ _ h => ⟨h.1, fun _ => h.2⟩
  have stays : Yields (pure none) s fun (r : Option (Option NodeId)) s' =>
      Later s s' ∧ (r.isSome = true → s'.stream.left < s.stream.left) :=
    .pure ⟨.refl s, nofun⟩
  refine looks_token.yields ?_
  by_cases ht : s.stream.current.kind = .endOfFile
  · rw [ht]
    exact stays
  · split
    · refine spends ((spendsAt_advance ht).bind fun hk _ => ?_)
      exact (fits_member (he hk) (hp hk) (by omega)).map
    · refine spends ((spendsAt_advance ht).bind fun hk _ => ?_)
      exact (fits_member (he hk) (hp hk) (by omega)).map
    · refine spends ((spendsAt_advance ht).bind fun hk _ => ?_)
      exact (looks_isAt _).fits.bind fun _ => (fits_member (he hk) (hp hk) (by omega)).map
    · next h => exact spends ((spendsAt_arguments h he hn).bind fun _ _ => fits_done.map)
    · refine spends ((spendsAt_advance ht).bind fun hk _ => ?_)
      refine (fits_elementIndex (he hk)).bind fun _ => ?_
      exact fits_expect.discard.bind fun _ => fits_done.map
    · split
      · exact spends ((spendsAt_advance ht).bind fun _ _ => fits_done.map)
      · exact stays
    · exact stays

theorem turns_suffixes {bound start : Nat} (he : 0 < k → Fits (k - 1) (self .expression))
    (hp : 0 < k → Fits (k - 1) (self .primary)) (hb : k < bound) :
    Turns k fun e n => suffixes self bound start n e := by
  intro e s hs
  refine .bind (yields_suffix he hp hb hs) fun r s' h => ?_
  cases r with
  | none => exact .leave h.1 (.pure (.refl s'))
  | some r =>
    cases r with
    | none => exact .leave h.1 (.pure (.refl s'))
    | some e' => exact .inr ⟨e', id, s', h.1, h.2 rfl, fun n => by rw [id_map]⟩

theorem fits_suffixes {bound start : Nat} {e : NodeId}
    (he : 0 < k → Fits (k - 1) (self .expression)) (hp : 0 < k → Fits (k - 1) (self .primary))
    (hb : k < bound) (hn : k < n) : Fits k (suffixes self bound start n e) :=
  (turns_suffixes he hp hb).fits hn (i := e)

/-! ## Operators -/

theorem fits_unaryOf {start : Nat} {operator : String} (hu : Fits k (self .unary)) :
    Fits k (unaryOf self start operator) := by
  apply hu.bind
  intro r
  cases r with
  | none => exact .pure
  | some operand => exact fits_done

theorem fits_unary (he : 0 < k → Fits (k - 1) (self .expression)) (hp : Fits k (self .primary))
    (hu : 0 < k → Fits (k - 1) (self .unary)) (hn : k < n) : Fits k (unary self n) := by
  refine fun t => .token ?_
  split
  · next h =>
    have ht : t.kind = .operator := eq_of_beq (Bool.and_eq_true_iff.mp h).1
    exact .advance (ht ▸ by decide) fun hk => fits_unaryOf (hu hk)
  · split
    · next h =>
      have ht : t.kind = .identifier := by
        rcases Bool.or_eq_true_iff.mp h with h | h <;>
          exact eq_of_beq (Bool.and_eq_true_iff.mp h).1
      exact .advance (ht ▸ by decide) fun hk => fits_unaryOf (hu hk)
    · refine .look looks_isAtCast fun s hs => ?_
      split
      · next h =>
        have ht : t.kind = .openParen := by
          simp only [Bool.and_eq_true] at h
          exact hs ▸ eq_of_beq h.1.1.1
        refine .advance (ht ▸ by decide) fun hk => looks_token.fits.bind fun _ => ?_
        exact fits_advance.bind fun _ => fits_advance.bind fun _ => fits_unaryOf (hu hk)
      · refine (hp.bind fun r => ?_) t
        cases r with
        | none => exact .pure
        | some e => exact fits_suffixes he (fun _ => hp.mono (Nat.sub_le ..)) hn hn

theorem fits_rightOperand {operator : String} {own : Nat} (hp : Fits k (self .primary))
    (ho : ∀ level, Fits k (self (.operand level))) : Fits k (rightOperand self operator own) :=
  .ite (fun _ => fits_classReference hp) fun _ => ho _

theorem binaryOperator?_endOfFile (h : t.kind = .endOfFile) : binaryOperator? t = none := by
  unfold binaryOperator?
  rw [h]
  rfl

theorem turns_operators {level start : Nat} (hp : 0 < k → Fits (k - 1) (self .primary))
    (ho : 0 < k → ∀ level, Fits (k - 1) (self (.operand level))) :
    Turns k fun left n => operators self level start n left := by
  refine .of_round fun left => .token fun t => ?_
  cases h : binaryOperator? t with
  | none => exact .leave .pure
  | some found =>
    have ht : t.kind ≠ .endOfFile := fun hk =>
      Option.some_ne_none _ (h.symm.trans (binaryOperator?_endOfFile hk))
    refine .ite (fun _ => .leave .pure) fun _ => .advance ht ?_
    refine .next (fun hk => fits_rightOperand (hp hk) (ho hk)) fun r => ?_
    cases r with
    | none => exact .leave .pure
    | some right => exact .next (fun _ => fits_node) fun whole => .goOn

theorem fits_operators {level start : Nat} {left : NodeId}
    (hp : 0 < k → Fits (k - 1) (self .primary))
    (ho : 0 < k → ∀ level, Fits (k - 1) (self (.operand level))) (hn : k < n) :
    Fits k (operators self level start n left) :=
  (turns_operators hp ho).fits hn (i := left)

theorem fits_operand {level : Nat} (hu : Fits k (self .unary))
    (hp : 0 < k → Fits (k - 1) (self .primary))
    (ho : 0 < k → ∀ level, Fits (k - 1) (self (.operand level))) (hn : k < n) :
    Fits k (operand self n level) := by
  refine looks_token.fits.bind fun _ => ?_
  apply hu.bind
  intro r
  cases r with
  | none => exact .pure
  | some left => exact fits_operators hp ho hn

theorem fits_whenTrue (he : Fits k (self .expression)) : Fits k (whenTrue self) :=
  (looks_isAt _).fits.bind fun _ => .ite (fun _ => .pure) fun _ => he

theorem fits_conditional (he : 0 < k → Fits (k - 1) (self .expression))
    (ho : Fits k (self (.operand 0))) : Fits k (conditional self) := by
  refine looks_token.fits.bind fun _ => ?_
  apply ho.bind
  intro r
  cases r with
  | none => exact .pure
  | some condition =>
    refine fun t => .accept (by decide) (fun hk => ?_) (Fits.pure t)
    refine (fits_whenTrue (he hk)).bind fun _ => fits_expect.discard.bind fun _ => ?_
    exact (he hk).bind fun _ => fits_done

theorem fits_assignment (he : 0 < k → Fits (k - 1) (self .expression))
    (ho : Fits k (self (.operand 0))) : Fits k (assignment self) := by
  refine looks_token.fits.bind fun _ => ?_
  apply (fits_conditional he ho).bind
  intro r
  cases r with
  | none => exact .pure
  | some target =>
    refine fun t => .token (.accept (by decide) (fun hk => ?_) ?_)
    · exact fits_accept.bind fun _ => (he hk).bind fun _ => fits_done
    · split
      · next h => cases h
      · split
        · next h =>
          have ht : t.kind = .operator := eq_of_beq (Bool.and_eq_true_iff.mp h).1
          exact .advance (ht ▸ by decide) fun hk => (he hk).bind fun _ => fits_done
        · exact Fits.pure t

theorem fits_expression (he : 0 < k → Fits (k - 1) (self .expression))
    (ho : Fits k (self (.operand 0))) : Fits k (expression self) :=
  .nested .pure (fits_assignment he ho)

theorem fits_initialValue (he : Fits k (self .expression)) : Fits k (initialValue self) :=
  fits_accept.bind fun _ => .ite (fun _ => he) fun _ => .pure

end PhpAtlas.Grammar
