import PhpAtlas.Proofs.Excerpt.Following
import PhpAtlas.Grammar.Expression

/-! # Expressions in step

Types and expressions depend on the kinds and the texts of the tokens that they
are made of, and on a token or two behind these within the same block.
-/

namespace PhpAtlas.Grammar.Pairing

variable {L : Pairing} {t : Token} {n n' k k' : Nat}

/-! ## Type hints -/

theorem follows_singleHint : L.Follows singleHint id singleHint := by
  refine fun t => .token ?_
  rw [show hintOfToken? (L.token t) = hintOfToken? t from rfl]
  cases hintOfToken? t with
  | none => exact (follows_report t).bind fun _ => .pure
  | some hint => exact (follows_advance t).bind fun _ => .pure

theorem follows_joinedHints : L.Follows (joinedHints n) id (joinedHints n') := by
  refine follows_loop (fun _ : Unit => joinedHints) (fun _ => joinedHints) (fun _ => rfl)
    (fun _ => rfl) (fun n n' ih _ t => ?_) () n n'
  refine .kindAhead fun k k' hk => .isAt (.ite_of_eq ?_ (fun _ => ?_) fun _ => .pure)
  · refine and_congr_behind fun ht => ?_
    rw [hk (eq_of_beq ht ▸ TokenKind.inner_ampersand)]
  · refine (follows_advance t).bind fun _ => follows_singleHint.bind fun hint => ?_
    cases hint with
    | none => exact .pure
    | some hint => exact (ih ()).bind fun rest => .pure

theorem follows_intersectionHint : L.Follows (intersectionHint n) id (intersectionHint n') := by
  refine follows_singleHint.bind fun first => ?_
  cases first with
  | none => exact .pure
  | some first =>
    refine follows_joinedHints.bind fun rest => ?_
    cases rest with
    | none => exact .pure
    | some rest => exact .pure

theorem follows_memberHint : L.Follows (memberHint n) id (memberHint n') := by
  refine follows_accept.bind fun b => .ite (fun _ => ?_) fun _ => follows_intersectionHint
  refine follows_intersectionHint.bind fun inner => ?_
  cases inner with
  | none => exact .pure
  | some inner => exact follows_expect.discard.bind fun _ => .pure

theorem follows_unitedHints : L.Follows (unitedHints k n) id (unitedHints k' n') := by
  refine follows_loop (fun _ : Unit => unitedHints k) (fun _ => unitedHints k') (fun _ => rfl)
    (fun _ => rfl) (fun n n' ih _ => ?_) () n n'
  refine follows_accept.bind fun b => .ite (fun _ => ?_) fun _ => .pure
  refine follows_memberHint.bind fun hint => ?_
  cases hint with
  | none => exact .pure
  | some hint => exact (ih ()).bind fun rest => .pure

theorem follows_hint : L.Follows (hint n) id (hint n') := by
  refine follows_accept.bind fun b => .ite (fun _ => ?_) fun _ => ?_
  · exact follows_singleHint.bind fun inner => .pure
  · refine follows_memberHint.bind fun first => ?_
    cases first with
    | none => exact .pure
    | some first =>
      refine follows_unitedHints.bind fun rest => ?_
      cases rest with
      | none => exact .pure
      | some rest => exact .pure

theorem follows_hintAfterColon : L.Follows (hintAfterColon n) id (hintAfterColon n') :=
  follows_accept.bind fun _ => .ite (fun _ => follows_hint) fun _ => .pure

/-! ## Expressions -/

theorem follows_classNameRule : L.Follows classNameRule L.ids classNameRule := by
  refine fun t => .token (.ite (fun _ => ?_) fun _ => ?_)
  · exact follows_fail t
  · exact (follows_advance t).bind fun _ => follows_done

theorem follows_identifierOf {fits : TokenKind → Bool} :
    L.Follows (identifierOf fits) L.ids (identifierOf fits) := by
  refine fun t => .token (.ite (fun _ => ?_) fun _ => .pure)
  exact (follows_advance t).bind fun _ => follows_done

theorem follows_skipRun : L.Follows (skipRun n k) id (skipRun n' k) := by
  refine follows_loop (fun k n => skipRun n k) (fun k n => skipRun n k) (fun _ => rfl)
    (fun _ => rfl) (fun n n' ih k t => ?_) k n n'
  have go (k : Nat) : L.FollowsAt t (advance >>= fun _ => skipRun n k) id
      (advance >>= fun _ => skipRun n' k) := (follows_advance t).bind fun _ => ih k
  rw [skipRun_succ, skipRun_succ]
  refine .token (.ite (fun _ => .pure) fun _ => .ite (fun _ => go _) fun _ =>
    .ite (fun _ => ?_) fun _ => .ite (fun _ => ?_) fun _ => go _)
  · exact .ite (fun _ => .pure) fun _ => go _
  · exact .ite (fun _ => .pure) fun _ => go _

theorem follows_skippedExpression {start : Nat} :
    L.Follows (skippedExpression n start) L.ids (skippedExpression n' (L.place start)) :=
  follows_skipRun.bind fun _ => follows_done

/-! ## Looking ahead -/

section

variable {γ δ : Type} {ψ : γ → δ} {f : Bool → Parse γ} {f' : Bool → Parse δ}

theorem FollowsAt.isAtArrowOrMatch (h : ∀ b, L.FollowsAt t (f b) ψ (f' b)) :
    L.FollowsAt t (isAtArrowOrMatch >>= f) ψ (isAtArrowOrMatch >>= f') := by
  refine .look looks_isAtArrowOrMatch_eq (fun s r hs ht => ?_) fun s _ => h _
  have hnext (hw : ∃ word, s.stream.current.isWord word = true) :
      (r.stream.peek 1).kind = (s.stream.peek 1).kind := by
    obtain ⟨word, hw⟩ := hw
    rw [L.ahead hs (TokenKind.inner_of_isWord hw)]
    rfl
  rw [L.current hs]
  refine ite_congr rfl (fun hw => ?_) fun _ => and_congr_behind fun hw => ?_
  · rw [hnext ⟨_, hw⟩]
  · rw [hnext ⟨_, hw⟩]

theorem FollowsAt.isAtStaticClosure (h : ∀ b, L.FollowsAt t (f b) ψ (f' b)) :
    L.FollowsAt t (isAtStaticClosure >>= f) ψ (isAtStaticClosure >>= f') := by
  refine .look looks_isAtStaticClosure (fun s r hs ht => ?_) fun s _ => h _
  rw [L.current hs]
  refine and_congr_behind fun hk => ?_
  rw [L.ahead hs (eq_of_beq hk ▸ TokenKind.inner_keyword)]
  rfl

theorem FollowsAt.isAtCast (h : ∀ b, L.FollowsAt t (f b) ψ (f' b)) :
    L.FollowsAt t (isAtCast >>= f) ψ (isAtCast >>= f') := by
  refine .look looks_isAtCast (fun s r hs ht => ?_) fun s _ => h _
  rw [L.current hs]
  have hone (hk : (s.stream.current.kind == .openParen) = true) := L.ahead hs
    (eq_of_beq hk ▸ TokenKind.inner_openParen)
  rw [Bool.and_assoc, Bool.and_assoc, Bool.and_assoc, Bool.and_assoc]
  refine and_congr_behind fun hk => ?_
  rw [hone hk]
  refine and_congr_behind fun hi => and_congr_behind fun _ => ?_
  rw [L.further hs (eq_of_beq hk ▸ TokenKind.inner_openParen)
    (eq_of_beq hi ▸ TokenKind.inner_identifier)]
  rfl

end

variable (L) in
/-- The rules that a rule is run with in the second run follow those in the first. -/
def FollowsRules (self self' : Rules) : Prop := ∀ goal, L.Follows (self goal) L.ids (self' goal)

variable {self self' : Rules} {kind : TokenKind} {spelling : String}

theorem follows_bracketed (h : L.FollowsRules self self') :
    L.Follows (bracketed self kind spelling) L.ids (bracketed self' kind spelling) :=
  (h .expression).bind fun _ => follows_expect.discard.bind fun _ => .pure

theorem follows_variableTarget (h : L.FollowsRules self self') :
    L.Follows (variableTarget self) L.ids (variableTarget self') :=
  follows_accept.bind fun _ => .ite (fun _ => follows_bracketed h) fun _ => h .primary

theorem follows_variableVariable (h : L.FollowsRules self self') :
    L.Follows (variableVariable self) L.ids (variableVariable self') :=
  fun t => .token ((follows_advance t).bind fun _ => (follows_variableTarget h).bind fun _ =>
    follows_done)

/-! ## Arrays and arguments -/

variable (L) in
/-- An entry of an array with its nodes renumbered. -/
def entry : Option NodeId × Option NodeId → Option NodeId × Option NodeId :=
  fun (key, value) => (L.ids key, L.ids value)

theorem follows_arrayEntry (h : L.FollowsRules self self') {first : NodeId} :
    L.Follows (arrayEntry self first) L.entry (arrayEntry self' (L.number first)) :=
  follows_accept.bind fun _ => .ite (fun _ => follows_accept.discard.bind fun _ =>
    (h .expression).bind fun _ => .pure) fun _ => .pure

theorem follows_arrayEntries (h : L.FollowsRules self self') :
    L.Follows (arrayEntries self kind n) (List.map L.entry) (arrayEntries self' kind n') := by
  refine follows_loop (fun _ : Unit => arrayEntries self kind) (fun _ => arrayEntries self' kind)
    (fun _ => rfl) (fun _ => rfl) (fun n n' ih _ t => ?_) () n n'
  refine .isAtEndOr (.ite (fun _ => .pure) fun _ => (follows_accept t).bind fun _ =>
    .ite (fun _ => ?_) fun _ => ?_)
  · exact ih ()
  · refine follows_accept.discard.bind fun _ => follows_accept.discard.bind fun _ =>
      (h .expression).bind fun first => ?_
    cases first with
    | none => exact .pure
    | some first =>
      refine (follows_arrayEntry h).bind fun entry => follows_accept.bind fun _ =>
        .ite (fun _ => ?_) fun _ => .pure
      exact (ih ()).bind fun _ => .pure

theorem follows_arrayLiteral (h : L.FollowsRules self self') :
    L.Follows (arrayLiteral self n kind spelling) L.ids (arrayLiteral self' n' kind spelling) :=
  fun t => .token ((follows_advance t).bind fun _ => (follows_arrayEntries h).bind fun _ =>
    follows_expect.discard.bind fun _ => follows_done)

theorem follows_argumentName : L.Follows argumentName id argumentName := by
  refine fun t => .token (.kindAhead fun k k' hk => .ite_of_eq ?_ (fun _ => ?_) fun _ => .pure)
  · refine and_congr_behind fun ht => ?_
    rw [hk (TokenKind.inner_of_isMemberName ht)]
  · exact (follows_advance t).bind fun _ => follows_advance

theorem follows_argumentList (h : L.FollowsRules self self') :
    L.Follows (argumentList self n) (List.map L.ids) (argumentList self' n') := by
  refine follows_loop (fun _ : Unit => argumentList self) (fun _ => argumentList self')
    (fun _ => rfl) (fun _ => rfl) (fun n n' ih _ t => ?_) () n n'
  refine .isAtEndOr (.ite (fun _ => .pure) fun _ => (follows_argumentName t).bind fun _ =>
    follows_accept.discard.bind fun _ => (h .expression).bind fun argument => ?_)
  cases argument with
  | none => exact .pure
  | some argument =>
    refine follows_accept.bind fun _ => .ite (fun _ => ?_) fun _ => .pure
    exact (ih ()).bind fun _ => .pure

theorem follows_arguments (h : L.FollowsRules self self') :
    L.Follows (arguments self n) (List.map L.ids) (arguments self' n') := by
  refine follows_expect.discard.bind fun _ t => .isAt (.kindAhead fun k k' hk =>
    .ite_of_eq ?_ (fun _ => ?_) fun _ => ?_)
  · refine and_congr_behind fun ht => ?_
    rw [hk (eq_of_beq ht ▸ TokenKind.inner_ellipsis)]
  · exact (follows_advance t).bind fun _ => follows_advance.bind fun _ => .pure
  · exact (follows_argumentList h t).bind fun _ => follows_expect.discard.bind fun _ => .pure

/-! ## Primary expressions -/

theorem follows_classReference (h : L.FollowsRules self self') :
    L.Follows (classReference self) L.ids (classReference self') := by
  intro t
  refine .token ?_
  rw [show (L.token t).kind = t.kind from rfl]
  cases t.kind with
  | «variable» | dollar | openParen => exact h .primary t
  | keyword k =>
    cases k with
    | staticKw => exact h .primary t
    | _ => exact .ite (fun _ => follows_classNameRule t) fun _ => follows_fail t
  | _ => exact .ite (fun _ => follows_classNameRule t) fun _ => follows_fail t

theorem follows_optionalArguments (h : L.FollowsRules self self') :
    L.Follows (optionalArguments self n) (List.map L.ids) (optionalArguments self' n') :=
  fun t => .isAt (.ite (fun _ => follows_arguments h t) fun _ => .pure)

theorem follows_newExpression (h : L.FollowsRules self self') :
    L.Follows (newExpression self n) L.ids (newExpression self' n') := by
  refine fun t => .token ((follows_advance t).bind fun _ u => .isAt (.ite (fun _ => ?_) fun _ => ?_))
  · exact follows_skippedExpression u
  · refine (follows_classReference h u).bind fun classRef => ?_
    cases classRef with
    | none => exact .pure
    | some classRef => exact (follows_optionalArguments h).bind fun _ => follows_done

theorem follows_primary (h : L.FollowsRules self self') :
    L.Follows (primary self n) L.ids (primary self' n') := by
  intro t
  refine .token ?_
  rw [show (L.token t).kind = t.kind from rfl]
  cases hk : t.kind with
  | «variable» | string | number => exact (follows_advance t).bind fun _ => follows_done
  | dollar => exact follows_variableVariable h t
  | qualifiedName | fullyQualifiedName => exact follows_classNameRule t
  | openParen =>
    exact (follows_advance t).bind fun _ => (follows_bracketed h).bind fun _ => follows_done
  | openBracket => exact follows_arrayLiteral h t
  | identifier =>
    refine .kindAhead fun k k' hk' => ?_
    rw [hk' (hk ▸ TokenKind.inner_identifier)]
    refine .ite (fun _ => ?_) fun _ => .isAtArrowOrMatch fun b => .ite (fun _ => ?_) fun _ => ?_
    · exact (follows_advance t).bind fun _ => follows_arrayLiteral h
    · exact follows_skippedExpression t
    · exact follows_classNameRule t
  | keyword k =>
    cases k with
    | functionKw => exact follows_skippedExpression t
    | staticKw =>
      refine .isAtStaticClosure fun b => .ite (fun _ => ?_) fun _ => ?_
      · exact follows_skippedExpression t
      · exact (follows_advance t).bind fun _ => follows_done
    | newKw => exact follows_newExpression h t
    | _ => exact follows_fail t
  | _ => exact follows_fail t

theorem follows_memberName (h : L.FollowsRules self self') :
    L.Follows (memberName self) L.ids (memberName self') := by
  refine follows_identifierOf.bind fun name => ?_
  cases name with
  | some name => exact .pure
  | none =>
    intro t
    refine .token ?_
    rw [show (L.token t).kind = t.kind from rfl]
    cases t.kind with
    | «variable» | dollar => exact h .primary t
    | openBrace => exact (follows_advance t).bind fun _ => follows_bracketed h
    | _ => exact follows_fail t

theorem follows_member (h : L.FollowsRules self self') {start : Nat} {target : NodeId}
    {call : CallForm} {access : AccessForm} {callable nullsafe : Bool} :
    L.Follows (member self n start target call access callable nullsafe) L.ids
      (member self' n' (L.place start) (L.number target) call access callable nullsafe) := by
  refine (follows_memberName h).bind fun name => ?_
  cases name with
  | none => exact .pure
  | some name =>
    refine fun t => .isAt (.ite (fun _ => ?_) fun _ => follows_done t)
    exact (follows_arguments h t).bind fun _ => follows_done

theorem follows_elementIndex (h : L.FollowsRules self self') :
    L.Follows (elementIndex self) L.ids (elementIndex self') :=
  fun t => .isAt (.ite (fun _ => .pure) fun _ => h .expression t)

theorem follows_suffix (h : L.FollowsRules self self') {start : Nat} {e : NodeId} :
    L.Follows (suffix self n start e) (Option.map L.ids)
      (suffix self' n' (L.place start) (L.number e)) := by
  intro t
  refine .token ?_
  rw [show (L.token t).kind = t.kind from rfl]
  cases t.kind with
  | arrow | nullsafeArrow =>
    exact (follows_advance t).bind fun _ => (follows_member h).map fun _ => rfl
  | doubleColon =>
    exact (follows_advance t).bind fun _ u => .isAt ((follows_member h u).map fun _ => rfl)
  | openParen =>
    exact (follows_arguments h t).bind fun _ => follows_done.map fun _ => rfl
  | openBracket =>
    exact (follows_advance t).bind fun _ => (follows_elementIndex h).bind fun _ =>
      follows_expect.discard.bind fun _ => follows_done.map fun _ => rfl
  | operator =>
    refine .ite (fun _ => ?_) fun _ => .pure
    exact (follows_advance t).bind fun _ => follows_done.map fun _ => rfl
  | _ => exact .pure

theorem follows_suffixes (h : L.FollowsRules self self') {start : Nat} {e : NodeId} :
    L.Follows (suffixes self k start n e) L.ids
      (suffixes self' k' (L.place start) n' (L.number e)) := by
  refine follows_loop (fun e n => suffixes self k start n e)
    (fun e n => suffixes self' k' (L.place start) n (L.number e)) (fun _ => rfl) (fun _ => rfl)
    (fun n n' ih e => ?_) e n n'
  refine (follows_suffix h).bind fun r => ?_
  rcases r with _ | _ | e
  · exact .pure
  · exact .pure
  · exact ih e

/-! ## Operators -/

theorem follows_unaryOf (h : L.FollowsRules self self') {start : Nat} {operator : String} :
    L.Follows (unaryOf self start operator) L.ids (unaryOf self' (L.place start) operator) := by
  refine (h .unary).bind fun operand => ?_
  cases operand with
  | none => exact .pure
  | some operand => exact follows_done

theorem follows_unary (h : L.FollowsRules self self') :
    L.Follows (unary self n) L.ids (unary self' n') := by
  refine fun t => .token (.ite (fun _ => ?_) fun _ => .ite (fun _ => ?_) fun _ =>
    .isAtCast fun b => .ite (fun _ => ?_) fun _ => ?_)
  · exact (follows_advance t).bind fun _ => follows_unaryOf h
  · exact (follows_advance t).bind fun _ => follows_unaryOf h
  · exact (follows_advance t).bind fun _ u => .token ((follows_advance u).bind fun _ =>
      follows_advance.bind fun _ => follows_unaryOf h)
  · refine (h .primary t).bind fun e => ?_
    cases e with
    | none => exact .pure
    | some e => exact follows_suffixes h

theorem follows_rightOperand (h : L.FollowsRules self self') {operator : String} :
    L.Follows (rightOperand self operator k) L.ids (rightOperand self' operator k) :=
  .ite (fun _ => follows_classReference h) fun _ => h _

theorem follows_operators (h : L.FollowsRules self self') {level start : Nat} {left : NodeId} :
    L.Follows (operators self level start n left) L.ids
      (operators self' level (L.place start) n' (L.number left)) := by
  refine follows_loop (fun e n => operators self level start n e)
    (fun e n => operators self' level (L.place start) n (L.number e)) (fun _ => rfl)
    (fun _ => rfl) (fun n n' ih e t => .token ?_) left n n'
  rw [show binaryOperator? (L.token t) = binaryOperator? t from rfl]
  cases binaryOperator? t with
  | none => exact .pure
  | some found =>
    refine .ite (fun _ => .pure) fun _ => (follows_advance t).bind fun _ =>
      (follows_rightOperand h).bind fun right => ?_
    cases right with
    | none => exact .pure
    | some right => exact follows_node.bind fun whole => ih whole

theorem follows_operand (h : L.FollowsRules self self') {level : Nat} :
    L.Follows (operand self n level) L.ids (operand self' n' level) := by
  refine fun t => .token ((h .unary t).bind fun left => ?_)
  cases left with
  | none => exact .pure
  | some left => exact follows_operators h

theorem follows_whenTrue (h : L.FollowsRules self self') :
    L.Follows (whenTrue self) L.ids (whenTrue self') :=
  fun t => .isAt (.ite (fun _ => .pure) fun _ => h .expression t)

theorem follows_conditional (h : L.FollowsRules self self') :
    L.Follows (conditional self) L.ids (conditional self') := by
  refine fun t => .token ((h (.operand 0) t).bind fun condition => ?_)
  cases condition with
  | none => exact .pure
  | some condition =>
    refine follows_accept.bind fun _ => .ite (fun _ => ?_) fun _ => .pure
    exact (follows_whenTrue h).bind fun _ => follows_expect.discard.bind fun _ =>
      (h .expression).bind fun _ => follows_done

theorem follows_assignment (h : L.FollowsRules self self') :
    L.Follows (assignment self) L.ids (assignment self') := by
  refine fun t => .token ((follows_conditional h t).bind fun target => ?_)
  cases target with
  | none => exact .pure
  | some target =>
    refine fun u => .token ((follows_accept u).bind fun _ => .ite (fun _ => ?_) fun _ =>
      .ite (fun _ => ?_) fun _ => .pure)
    · exact follows_accept.bind fun _ => (h .expression).bind fun _ => follows_done
    · exact follows_advance.bind fun _ => (h .expression).bind fun _ => follows_done

theorem follows_expression (h : L.FollowsRules self self') :
    L.Follows (expression self) L.ids (expression self') :=
  .nested (inherited_keeps.pure ()) (follows_assignment h)

theorem follows_initialValue (h : L.FollowsRules self self') :
    L.Follows (initialValue self) L.ids (initialValue self') :=
  follows_accept.bind fun _ => .ite (fun _ => h .expression) fun _ => .pure

end PhpAtlas.Grammar.Pairing
