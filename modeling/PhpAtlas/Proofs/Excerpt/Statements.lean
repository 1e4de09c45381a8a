import PhpAtlas.Proofs.Excerpt.Expressions
import PhpAtlas.Grammar.Statement

/-! # Statements in step

What expressions do is true of statements and declarations: the rules of the whole
grammar go in step, whatever numbers of steps they are given.
-/

namespace PhpAtlas.Grammar.Pairing

variable {L : Pairing} {t : Token} {n n' k k' : Nat} {start : Nat}

/-! ## Imports -/

theorem follows_modifiers {found : Modifiers} : L.Follows (modifiers n found) id (modifiers n' found) := by
  refine follows_loop (fun found n => modifiers n found) (fun found n => modifiers n found)
    (fun _ => rfl) (fun _ => rfl) (fun n n' ih found t => .token ?_) found n n'
  rw [show (L.token t).kind = t.kind from rfl]
  cases t.kind.modifier? with
  | none => exact .pure
  | some modifier =>
    refine .kindAhead fun k k' hk => .ite_of_eq ?_ (fun _ => .pure) fun _ => ?_
    · refine and_congr_behind fun ht => ?_
      rw [hk (eq_of_beq ht ▸ TokenKind.inner_keyword)]
    · exact (follows_advance t).bind fun _ => ih _

theorem follows_importAlias : L.Follows importAlias id importAlias :=
  follows_accept.bind fun _ => .ite (fun _ t => .token ((follows_accept t).bind fun _ =>
    .ite (fun _ => .pure) fun _ => follows_report.bind fun _ => .pure)) fun _ => .pure

theorem follows_groupItems {shared : String} :
    L.Follows (groupItems shared n) id (groupItems shared n') := by
  refine follows_loop (fun _ : Unit => groupItems shared) (fun _ => groupItems shared)
    (fun _ => rfl) (fun _ => rfl) (fun n n' ih _ t => .token (.ite (fun _ => .pure) fun _ => ?_))
    () n n'
  exact (follows_advance t).bind fun _ => follows_importAlias.bind fun _ =>
    follows_accept.bind fun _ => .ite (fun _ => (ih ()).bind fun _ => .pure) fun _ => .pure

theorem follows_importGroup {shared : String} :
    L.Follows (importGroup n shared) id (importGroup n' shared) :=
  follows_expect.bind fun _ => .ite (fun _ => follows_groupItems.bind fun _ =>
    follows_expect.discard.bind fun _ => .pure) fun _ => .pure

theorem follows_importTail {name : String} :
    L.Follows (importTail n name) id (importTail n' name) := by
  refine fun t => .token (.ite (fun _ => ?_) fun _ => ?_)
  · exact (follows_advance t).bind fun _ => follows_importGroup
  · exact (follows_importAlias t).bind fun _ => .pure

theorem follows_importItems : L.Follows (importItems k n) id (importItems k' n') := by
  refine follows_loop (fun _ : Unit => importItems k) (fun _ => importItems k') (fun _ => rfl)
    (fun _ => rfl) (fun n n' ih _ t => .token (.ite (fun _ => ?_) fun _ => ?_)) () n n'
  · exact (follows_report t).bind fun _ => .pure
  · exact (follows_advance t).bind fun _ => follows_importTail.bind fun _ =>
      follows_accept.bind fun _ => .ite (fun _ => (ih ()).bind fun _ => .pure) fun _ => .pure

theorem follows_importForm : L.Follows importForm id importForm :=
  follows_accept.bind fun _ => .ite (fun _ => .pure) fun _ => follows_accept.bind fun _ =>
    .ite (fun _ => .pure) fun _ => .pure

theorem follows_importDeclaration :
    L.Follows (importDeclaration n) L.ids (importDeclaration n') :=
  fun t => .token ((follows_advance t).bind fun _ => follows_importForm.bind fun _ =>
    follows_importItems.bind fun _ => follows_expectSemicolon.bind fun _ => follows_done)

/-! ## Lists of statements -/

theorem follows_skipStatement : L.Follows (skipStatement n k) id (skipStatement n' k) := by
  refine follows_loop (fun k n => skipStatement n k) (fun k n => skipStatement n k) (fun _ => rfl)
    (fun _ => rfl) (fun n n' ih k t => ?_) k n n'
  have go (k : Nat) : L.FollowsAt t (advance >>= fun _ => skipStatement n k) id
      (advance >>= fun _ => skipStatement n' k) := (follows_advance t).bind fun _ => ih k
  rw [skipStatement_succ, skipStatement_succ]
  refine .token (.ite (fun _ => .pure) fun _ => .ite (fun _ => go _) fun _ =>
    .ite (fun _ => ?_) fun _ => .ite (fun _ => go _) fun _ => .ite (fun _ => ?_) fun _ =>
    .ite (fun _ => ?_) fun _ => go _)
  · refine .ite (fun _ => .pure) fun _ => (follows_advance t).bind fun _ u => .token ?_
    exact .ite (fun _ => .pure) fun _ => ih _ u
  · exact (follows_advance t).bind fun _ => .ite (fun _ => .pure) fun _ => ih _
  · exact .ite (fun _ => .pure) fun _ => go _

/-- Passing over reports where it reads a token, so in what is kept it does nothing. -/
theorem follows_passing {c : Token → Bool} {c' : Token → Bool} {fault : SyntaxFault}
    (hc : ∀ t, L.Seen t → c t = false → c' (L.token t) = false) :
    L.Follows (token >>= fun after => if c after then report fault >>= fun _ => advance else pure ())
      id (token >>= fun after => if c' after then report fault >>= fun _ => advance
        else pure ()) := by
  intro t s a s' ht hr hk
  rw [looks_token.run_bind] at hr
  split at hr
  · obtain ⟨_, s₁, h₁, h₂⟩ := run_bind_eq_some hr
    exact absurd (follows_advance.keeps _ _ _ h₂ hk) (L.not_kept_report h₁)
  · next hct =>
    cases hr
    refine ⟨hk, fun r b r' hs hr' => ?_⟩
    have hct' := hc _ ⟨_, r, hs, rfl⟩ (by simpa using hct)
    rw [looks_token.run_bind, L.current hs, hct'] at hr'
    cases hr'
    exact ⟨rfl, hs⟩

/-- Tokens that stand apart in the first run stand apart in the second. -/
theorem start_ne {t before : Token} (ht : L.Seen t) (hb : L.Seen before)
    (h : (t.start == before.start) = false) :
    ((L.token t).start == (L.token before).start) = false := by
  obtain ⟨s, r, hs, rfl⟩ := ht
  obtain ⟨s', r', hs', rfl⟩ := hb
  simp only [beq_eq_false_iff_ne] at h ⊢
  exact fun heq => h (L.place_inj hs' hs heq)

theorem follows_passOver {before : Token} (hb : L.Seen before) :
    L.Follows (passOver before) id (passOver (L.token before)) := by
  refine follows_passing fun t ht hc => ?_
  rcases Bool.and_eq_false_iff.mp hc with hc | hc
  · rw [start_ne ht hb hc, Bool.false_and]
  · exact Bool.and_eq_false_iff.mpr (.inr hc)

theorem follows_passOverMember {before : Token} (hb : L.Seen before) :
    L.Follows (passOverMember before) id (passOverMember (L.token before)) :=
  follows_passing fun _ ht hc => start_ne ht hb hc

theorem FollowsAt.isAtNamespace {γ δ : Type} {ψ : γ → δ} {f : Bool → Parse γ} {f' : Bool → Parse δ}
    (h : ∀ b, L.FollowsAt t (f b) ψ (f' b)) :
    L.FollowsAt t (isAtNamespace >>= f) ψ (isAtNamespace >>= f') := by
  refine .look looks_isAtNamespace (fun s r hs ht => ?_) fun s _ => h _
  rw [L.current hs]
  refine and_congr_behind fun hk => ?_
  rw [L.ahead hs (eq_of_beq hk ▸ TokenKind.inner_keyword)]
  rfl

variable {self self' : Rules} {kind : TokenKind} {spelling : String}

theorem follows_statementList {closing : TokenKind} {stopAtNamespace : Bool}
    (h : L.FollowsRules self self') :
    L.Follows (statementList self closing stopAtNamespace n) (List.map L.ids)
      (statementList self' closing stopAtNamespace n') := by
  refine follows_loop (fun _ : Unit => statementList self closing stopAtNamespace)
    (fun _ => statementList self' closing stopAtNamespace) (fun _ => rfl) (fun _ => rfl)
    (fun n n' ih _ t => ?_) () n n'
  have turn : L.FollowsAt t
      (token >>= fun before => self .statement >>= fun statement => passOver before >>= fun _ =>
        statementList self closing stopAtNamespace n >>= fun rest =>
          pure (if statement.isSome then statement :: rest else rest)) (List.map L.ids)
      (token >>= fun before => self' .statement >>= fun statement => passOver before >>= fun _ =>
        statementList self' closing stopAtNamespace n' >>= fun rest =>
          pure (if statement.isSome then statement :: rest else rest)) := by
    refine .token (.seen ?_ fun ht => ?_)
    · exact (h .statement).keeps.bind fun _ => inherited_keeps.passOver.bind fun _ =>
        (ih ()).keeps.bind fun _ => inherited_keeps.pure _
    · refine (h .statement t).bind fun statement => (follows_passOver ht).bind fun _ =>
        (ih ()).bind fun rest => ?_
      cases statement <;> exact .pure
  refine .isAtEndOr (.ite (fun _ => .pure) fun _ => .isAtNamespace fun _ =>
    .ite (fun _ => .pure) fun _ => turn)

theorem follows_block (h : L.FollowsRules self self') :
    L.Follows (block self n) L.ids (block self' n') :=
  fun t => .token ((follows_expect.discard t).bind fun _ => (follows_statementList h).bind fun _ =>
    follows_expect.discard.bind fun _ => follows_done)

/-! ## Functions -/

theorem follows_parameterHint : L.Follows (parameterHint n) id (parameterHint n') :=
  fun t => .token (.ite (fun _ => .pure) fun _ => follows_hint t)

theorem follows_parameter (h : L.FollowsRules self self') :
    L.Follows (parameter self n) L.ids (parameter self' n') :=
  fun t => .token ((follows_modifiers t).bind fun _ => follows_parameterHint.bind fun _ =>
    follows_accept.bind fun _ => follows_accept.bind fun _ u => .token ((follows_accept u).bind
      fun _ => .ite (fun _ => (follows_initialValue h).bind fun _ => follows_done) fun _ =>
        follows_fail))

theorem follows_parameterItems (h : L.FollowsRules self self') :
    L.Follows (parameterItems self k n) (List.map L.ids) (parameterItems self' k' n') := by
  refine follows_loop (fun _ : Unit => parameterItems self k) (fun _ => parameterItems self' k')
    (fun _ => rfl) (fun _ => rfl) (fun n n' ih _ t => ?_) () n n'
  refine .isAtEndOr (.ite (fun _ => .pure) fun _ => (follows_parameter h t).bind fun item => ?_)
  cases item with
  | none => exact .pure
  | some item =>
    exact follows_accept.bind fun _ => .ite (fun _ => (ih ()).bind fun _ => .pure) fun _ => .pure

theorem follows_parameterList (h : L.FollowsRules self self') :
    L.Follows (parameterList self n) (List.map L.ids) (parameterList self' n') :=
  follows_expect.bind fun _ => .ite (fun _ => (follows_parameterItems h).bind fun _ =>
    follows_expect.discard.bind fun _ => .pure) fun _ => .pure

theorem follows_declaredName {fits : TokenKind → Bool} {part : String} :
    L.Follows (declaredName fits part) L.ids (declaredName fits part) := by
  refine follows_identifierOf.bind fun name => ?_
  cases name with
  | none => exact follows_fail
  | some name => exact .pure

theorem follows_functionBody (h : L.FollowsRules self self') :
    L.Follows (functionBody self n) L.ids (functionBody self' n') :=
  fun t => .isAt (.ite (fun _ => follows_block h t) fun _ =>
    (follows_expectSemicolon t).bind fun _ => .pure)

theorem follows_functionLike (h : L.FollowsRules self self') {form : FunctionForm}
    {modifiers : Modifiers} {doc : Option String} :
    L.Follows (functionLike self n form start modifiers doc) L.ids
      (functionLike self' n' form (L.place start) modifiers doc) :=
  follows_expect.discard.bind fun _ => follows_accept.bind fun _ => follows_declaredName.bind fun _ =>
    (follows_parameterList h).bind fun _ => follows_hintAfterColon.bind fun _ =>
      (follows_functionBody h).bind fun _ => follows_done

theorem follows_functionDeclaration (h : L.FollowsRules self self') :
    L.Follows (functionDeclaration self n) L.ids (functionDeclaration self' n') :=
  fun t => .token ((follows_takeDoc t).bind fun _ => follows_functionLike h)

theorem FollowsAt.isAtFunctionName {γ δ : Type} {ψ : γ → δ} {f : Bool → Parse γ}
    {f' : Bool → Parse δ} (ht : t.kind.Inner) (h : ∀ b, L.FollowsAt t (f b) ψ (f' b)) :
    L.FollowsAt t (isAtFunctionName >>= f) ψ (isAtFunctionName >>= f') := by
  refine .look looks_isAtFunctionName_eq (fun s r hs hs' => ?_) fun s _ => h _
  rw [L.ahead hs (hs' ▸ ht)]
  refine congrArg _ (ite_congr rfl (fun hk => ?_) fun _ => rfl)
  rw [L.further hs (hs' ▸ ht) (eq_of_beq hk ▸ TokenKind.inner_ampersand)]
  rfl

/-! ## Class members -/

theorem follows_classNames : L.Follows (classNames n) (List.map L.ids) (classNames n') := by
  refine follows_loop (fun _ : Unit => classNames) (fun _ => classNames) (fun _ => rfl)
    (fun _ => rfl) (fun n n' ih _ => ?_) () n n'
  exact follows_classNameRule.bind fun _ => follows_accept.bind fun _ =>
    .ite (fun _ => (ih ()).bind fun _ => .pure) fun _ => .pure

theorem follows_conflictRules : L.Follows (conflictRules n) id (conflictRules n') :=
  fun t => .isAt (.ite (fun _ => follows_skipStatement t) fun _ => follows_expectSemicolon t)

theorem follows_traitUse : L.Follows (traitUse n) L.ids (traitUse n') :=
  fun t => .token ((follows_advance t).bind fun _ => follows_classNames.bind fun _ =>
    follows_conflictRules.bind fun _ => follows_done)

theorem follows_enumCase (h : L.FollowsRules self self') :
    L.Follows (enumCase self start) L.ids (enumCase self' (L.place start)) := by
  refine follows_advance.bind fun _ t => .token (.ite (fun _ => follows_fail t) fun _ => ?_)
  exact (follows_advance t).bind fun _ => (follows_initialValue h).bind fun _ =>
    follows_expectSemicolon.bind fun _ => follows_done

theorem follows_constantItems (h : L.FollowsRules self self') {modifiers : Modifiers} :
    L.Follows (constantItems self start modifiers n) (List.map L.ids)
      (constantItems self' (L.place start) modifiers n') := by
  refine follows_loop (fun _ : Unit => constantItems self start modifiers)
    (fun _ => constantItems self' (L.place start) modifiers) (fun _ => rfl) (fun _ => rfl)
    (fun n n' ih _ t => .token (.ite (fun _ => ?_) fun _ => ?_)) () n n'
  · exact (follows_report t).bind fun _ => .pure
  · refine (follows_advance t).bind fun _ => follows_expect.discard.bind fun _ =>
      (h .expression).bind fun _ => follows_node.bind fun _ => follows_accept.bind fun _ =>
      .ite (fun _ => (ih ()).bind fun _ => .pure) fun _ => follows_expectSemicolon.bind fun _ => .pure

theorem follows_constantHint : L.Follows (constantHint n) id (constantHint n') := by
  refine fun t => .token (.kindAhead fun k k' hk => .ite_of_eq ?_ (fun _ => ?_) fun _ => .pure)
  · refine and_congr_behind fun ht => ?_
    rw [hk (TokenKind.inner_of_isMemberName ht)]
  · exact follows_hint.discard t

theorem follows_constants (h : L.FollowsRules self self') {modifiers : Modifiers} :
    L.Follows (constants self n start modifiers) (List.map L.ids)
      (constants self' n' (L.place start) modifiers) :=
  follows_advance.bind fun _ => follows_constantHint.bind fun _ => follows_constantItems h

theorem follows_propertyItems (h : L.FollowsRules self self') {modifiers : Modifiers}
    {type : Option TypeHint} {doc : Option String} :
    L.Follows (propertyItems self start modifiers type doc n) (List.map L.ids)
      (propertyItems self' (L.place start) modifiers type doc n') := by
  refine follows_loop (fun _ : Unit => propertyItems self start modifiers type doc)
    (fun _ => propertyItems self' (L.place start) modifiers type doc) (fun _ => rfl)
    (fun _ => rfl) (fun n n' ih _ t => .token ((follows_accept t).bind fun _ =>
      .ite (fun _ => ?_) fun _ => ?_)) () n n'
  · exact follows_report.bind fun _ => .pure
  · exact (follows_initialValue h).bind fun _ => follows_node.bind fun _ => follows_accept.bind fun _ =>
      .ite (fun _ => (ih ()).bind fun _ => .pure) fun _ => follows_expectSemicolon.bind fun _ => .pure

theorem follows_propertyHint : L.Follows (propertyHint n) id (propertyHint n') :=
  fun t => .isAt (.ite (fun _ => .pure) fun _ => follows_hint t)

theorem follows_properties (h : L.FollowsRules self self') {modifiers : Modifiers}
    {doc : Option String} :
    L.Follows (properties self n start modifiers doc) (List.map L.ids)
      (properties self' n' (L.place start) modifiers doc) :=
  follows_propertyHint.bind fun _ => follows_propertyItems h

theorem follows_classMember (h : L.FollowsRules self self') :
    L.Follows (classMember self n) (List.map L.ids) (classMember self' n') := by
  refine fun t => .token ((follows_takeDoc t).bind fun doc u => .isAt (.ite (fun _ => ?_) fun _ =>
    .isAtWord (.ite (fun _ => ?_) fun _ => (follows_modifiers u).bind fun modifiers v => ?_)))
  · exact (follows_traitUse u).map fun _ => rfl
  · exact (follows_enumCase h u).map fun _ => rfl
  · have hrest : L.FollowsAt v
        (if modifiers.isEmpty && !startsHint v.kind then
          report (.expected "class member") >>= fun _ => pure []
        else properties self n t.start modifiers doc) (List.map L.ids)
        (if modifiers.isEmpty && !startsHint v.kind then
          report (.expected "class member") >>= fun _ => pure []
        else properties self' n' (L.place t.start) modifiers doc) :=
      .ite (fun _ => (follows_report v).bind fun _ => .pure) fun _ => follows_properties h v
    refine .token ?_
    rw [show (L.token v).kind = v.kind from rfl]
    revert hrest
    cases v.kind with
    | semicolon => exact fun _ => (follows_advance v).bind fun _ => .pure
    | keyword k =>
      cases k with
      | constKw => exact fun _ => follows_constants h v
      | functionKw => exact fun _ => (follows_functionLike h v).map fun _ => rfl
      | _ => exact id
    | _ => exact id

theorem follows_classMembers (h : L.FollowsRules self self') :
    L.Follows (classMembers self k n) (List.map L.ids) (classMembers self' k' n') := by
  refine follows_loop (fun _ : Unit => classMembers self k) (fun _ => classMembers self' k')
    (fun _ => rfl) (fun _ => rfl) (fun n n' ih _ t => ?_) () n n'
  have hmember : L.Follows (classMember self k) (List.map L.ids) (classMember self' k') :=
    follows_classMember h
  refine .isAtEndOr (.ite (fun _ => .pure) fun _ => .token (.seen ?_ fun ht => ?_))
  · exact hmember.keeps.bind fun _ => inherited_keeps.passOverMember.bind fun _ =>
      (ih ()).keeps.bind fun _ => inherited_keeps.pure _
  · exact (hmember t).bind fun found => (follows_passOverMember ht).bind fun _ =>
      (ih ()).bind fun rest => .pure_of_eq List.map_append.symm

/-! ## Classes -/

theorem follows_parentNames {form : ClassForm} :
    L.Follows (parentNames n form) (List.map L.ids) (parentNames n' form) :=
  follows_accept.bind fun _ => .ite (fun _ => .ite (fun _ => follows_classNames) fun _ =>
    follows_classNameRule.map fun _ => rfl) fun _ => .pure

theorem follows_interfaceNames {form : ClassForm} :
    L.Follows (interfaceNames n form) (List.map L.ids) (interfaceNames n' form) :=
  .ite (fun _ => follows_accept.bind fun _ => .ite (fun _ => follows_classNames) fun _ => .pure)
    fun _ => .pure

theorem follows_backingHint {form : ClassForm} :
    L.Follows (backingHint n form) id (backingHint n' form) :=
  .ite (fun _ => follows_hintAfterColon.discard) fun _ => .pure

theorem follows_classBody (h : L.FollowsRules self self') :
    L.Follows (classBody self n) (List.map L.ids) (classBody self' n') :=
  follows_expect.bind fun _ => .ite (fun _ => (follows_classMembers h).bind fun _ =>
    follows_expect.discard.bind fun _ => .pure) fun _ => .pure

theorem follows_classDeclaration (h : L.FollowsRules self self') :
    L.Follows (classDeclaration self n) L.ids (classDeclaration self' n') := by
  refine fun t => .token ((follows_takeDoc t).bind fun doc => follows_modifiers.bind fun modifiers u =>
    .token ?_)
  rw [show classForm? (L.token u) = classForm? u from rfl]
  cases classForm? u with
  | none => exact (follows_report u).bind fun _ => .pure
  | some form =>
    exact (follows_advance u).bind fun _ => follows_declaredName.bind fun _ =>
      follows_backingHint.bind fun _ => follows_parentNames.bind fun _ =>
        follows_interfaceNames.bind fun _ => (follows_classBody h).bind fun _ => follows_done

theorem FollowsAt.isAtEnum {γ δ : Type} {ψ : γ → δ} {f : Bool → Parse γ} {f' : Bool → Parse δ}
    (h : ∀ b, L.FollowsAt t (f b) ψ (f' b)) :
    L.FollowsAt t (isAtEnum >>= f) ψ (isAtEnum >>= f') := by
  refine .look looks_isAtEnum (fun s r hs ht => ?_) fun s _ => h _
  rw [L.current hs]
  refine and_congr_behind fun hw => ?_
  rw [L.ahead hs (TokenKind.inner_of_isWord hw)]
  rfl

/-! ## Namespaces -/

theorem follows_namespaceName : L.Follows namespaceName id namespaceName :=
  fun t => .token (.ite (fun _ => (follows_advance t).bind fun _ => .pure) fun _ => .pure)

theorem follows_namespaceEnd {name : Option String} :
    L.Follows (namespaceEnd name) id (namespaceEnd name) := by
  refine .ite (fun _ => ?_) fun _ => follows_expectSemicolon
  exact follows_report.bind fun _ => follows_expectSemicolon

theorem follows_namespaceDeclaration (h : L.FollowsRules self self') :
    L.Follows (namespaceDeclaration self n) L.ids (namespaceDeclaration self' n') :=
  fun t => .token ((follows_advance t).bind fun _ => follows_namespaceName.bind fun _ =>
    follows_accept.bind fun _ => .ite
      (fun _ => (follows_statementList h).bind fun _ => follows_expect.discard.bind fun _ =>
        follows_done)
      fun _ => follows_namespaceEnd.bind fun _ => (follows_statementList h).bind fun _ =>
        follows_done)

/-! ## Statements -/

theorem follows_skippedStatement : L.Follows (skippedStatement n) L.ids (skippedStatement n') :=
  follows_skipStatement.bind fun _ => .pure

theorem follows_returnValue (h : L.FollowsRules self self') :
    L.Follows (returnValue self) L.ids (returnValue self') :=
  fun t => .token (.ite (fun _ => .pure) fun _ => h .expression t)

theorem follows_returnStatement (h : L.FollowsRules self self') :
    L.Follows (returnStatement self) L.ids (returnStatement self') :=
  fun t => .token ((follows_advance t).bind fun _ => (follows_returnValue h).bind fun _ =>
    follows_expectSemicolon.bind fun _ => follows_done)

theorem follows_refuseColon : L.Follows refuseColon id refuseColon :=
  fun t => .isAt (.ite (fun _ => follows_report t) fun _ => .pure)

theorem follows_elseBranch (h : L.FollowsRules self self') :
    L.Follows (elseBranch self) L.ids (elseBranch self') :=
  fun t => .isAt (.ite (fun _ => h .ifStatement t) fun _ => (follows_accept t).bind fun _ =>
    .ite (fun _ => h .statement) fun _ => .pure)

theorem follows_ifStatement (h : L.FollowsRules self self') :
    L.Follows (ifStatement self) L.ids (ifStatement self') :=
  fun t => .token ((follows_advance t).bind fun _ => follows_expect.discard.bind fun _ =>
    (h .expression).bind fun _ => follows_expect.discard.bind fun _ => follows_refuseColon.bind fun _ =>
      (h .statement).bind fun _ => (follows_elseBranch h).bind fun _ => follows_done)

theorem follows_expressionStatement (h : L.FollowsRules self self') :
    L.Follows (expressionStatement self) L.ids (expressionStatement self') := by
  refine fun t => .token ((h .expression t).bind fun e => ?_)
  cases e with
  | none => exact .pure
  | some e => exact follows_expectSemicolon.bind fun _ => follows_done

theorem follows_statementBody (h : L.FollowsRules self self') :
    L.Follows (statementBody self n) L.ids (statementBody self' n') := by
  intro t
  have hexpression := follows_expressionStatement h t
  have hclass : L.FollowsAt t (classDeclaration self n) L.ids (classDeclaration self' n') :=
    follows_classDeclaration h t
  have hskipped : L.FollowsAt t (skippedStatement n) L.ids (skippedStatement n') :=
    follows_skippedStatement t
  refine .token ?_
  rw [show (L.token t).kind = t.kind from rfl]
  cases hk : t.kind with
  | openTag | closeTag | semicolon => exact (follows_advance t).bind fun _ => .pure
  | inlineHtml => exact (follows_advance t).bind fun _ => follows_done
  | openBrace => exact follows_block h t
  | identifier =>
    exact .isAtEnum fun _ => .ite (fun _ => hclass) fun _ => .ite (fun _ => hskipped) fun _ =>
      hexpression
  | keyword k =>
    cases k with
    | namespaceKw =>
      exact .isAtNamespace fun _ => .ite (fun _ => follows_namespaceDeclaration h t) fun _ =>
        hexpression
    | useKw => exact follows_importDeclaration t
    | classKw | interfaceKw | traitKw | abstractKw | finalKw | readonlyKw => exact hclass
    | functionKw =>
      refine .isAtFunctionName (hk ▸ TokenKind.inner_keyword) fun _ => .ite (fun _ => ?_) fun _ =>
        hexpression
      exact follows_functionDeclaration h t
    | returnKw => exact follows_returnStatement h t
    | ifKw => exact follows_ifStatement h t
    | constKw => exact hskipped
    | staticKw =>
      refine .kindAhead fun k k' hk' => ?_
      rw [hk' (hk ▸ TokenKind.inner_keyword)]
      exact .ite (fun _ => hexpression) fun _ => hskipped
    | _ => exact hexpression
  | _ => exact hexpression

theorem follows_rules (goal : Goal) : L.Follows (rules n goal) L.ids (rules n' goal) := by
  refine follows_loop (fun goal n => rules n goal) (fun goal n => rules n goal) (fun _ => rfl)
    (fun _ => rfl) (fun n n' ih goal => ?_) goal n n'
  cases goal with
  | expression => exact follows_expression ih
  | operand level => exact follows_operand ih
  | unary => exact follows_unary ih
  | primary => exact follows_primary ih
  | statement => exact .nested inherited_keeps.advance (follows_statementBody ih)
  | ifStatement => exact follows_ifStatement ih

end PhpAtlas.Grammar.Pairing
