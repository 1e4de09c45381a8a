import PhpAtlas.Proofs.Brackets.Expressions
import PhpAtlas.Proofs.Building.Holes

/-! # Brackets in sources

In a source without reports brackets match but in the runs that are skipped. Only
a statement that is skipped can break off with the file: what it has opened stays
open, and so does a quoted text in it.
-/

namespace PhpAtlas

namespace Grammar

variable {n bound start : Nat} {t : Token} {strict : Bool}

/-! ## Imports and modifiers -/

theorem isPlain_of_modifier? {kind : TokenKind} {modifier : Modifier}
    (h : kind.modifier? = some modifier) : kind.isPlain = true := by
  cases kind <;> first | rfl | cases h

theorem even_modifiers {found : Modifiers} : Even strict (modifiers n found) := by
  induction n generalizing found with
  | zero => exact moves_outOfSteps
  | succ n ih =>
    refine fun t => .token ?_
    split
    · next hm =>
      refine .look (looks_kindAhead 1) fun _ _ => .ite (fun _ => .pure fun _ => id) fun _ => ?_
      exact .plain (isPlain_of_modifier? hm) ih
    · exact .pure fun _ => id

theorem even_importAlias : Even strict importAlias := by
  refine (even_accept rfl).next fun _ => .ite (fun _ => ?_) fun _ => .pure fun _ => id
  refine .look looks_token fun _ => (even_accept rfl).next fun _ => .ite (fun _ => .pure fun _ => id)
    fun _ => moves_report.bind fun _ => .pure nofun

theorem even_groupItems {shared : String} : Even strict (groupItems shared n) := by
  induction n with
  | zero => exact moves_outOfSteps
  | succ n ih =>
    refine fun t => .token (.ite (fun _ => .pure fun _ => id) fun h => ?_)
    refine .plain (isPlain_of_isName (by simpa using h)) (even_importAlias.next fun _ => ?_)
    refine (even_accept rfl).next fun _ => .ite (fun _ => ?_) fun _ => .pure fun _ => id
    exact ih.next fun _ => .pure fun _ => id

theorem even_importGroup {shared : String} : Even strict (importGroup n shared) := by
  apply (moves_expect_opening rfl).bind
  rintro (_ | _)
  · exact .pure nofun
  · refine even_groupItems.next fun _ => ?_
    refine .closing rfl ?_
    exact .pure fun _ => id

/-- A lone backslash goes with the brace behind it. -/
theorem movesFrom_joint {s : State} {shared : String} (ht : s.stream.current.kind = .unknown) :
    MovesFrom s strict (some []) (advance >>= fun _ => importGroup n shared) fun _ => some [] := by
  intro r s' h
  obtain ⟨_, s₁, ha, h⟩ := run_bind_eq_some h
  obtain ⟨hl, hc, hn⟩ := run_advance ha
  obtain ⟨hl', hc', hg⟩ := (even_importGroup : Even strict _) _ s₁ rfl r s' h
  refine ⟨hl.trans hl', hc ∘ hc', fun hs hclean k hk => ?_⟩
  obtain ⟨k', hk', hg⟩ := hg (hs.of_suffix hl (List.cons_ne_nil _ _)) hclean k hk
  refine ⟨k', hk', fun σ => ?_⟩
  have hu : s₁.stream.current.kind = .openBrace := by
    obtain ⟨b, s₂, he, h₂⟩ := run_bind_eq_some h
    refine kind_of_expect he (?_ : s₂.Clean)
    have htail := @inherited_never strict
    split at h₂
    · have hitems : Moves strict none (groupItems shared n >>= fun items =>
          discard (expect .closeBrace "\x7d") >>= fun _ => pure items) fun _ => none :=
        htail.bind htail.groupItems fun _ => htail.bind (htail.discard htail.expect) fun _ => htail.pure _
      exact (hitems _ s₂ rfl r s' h₂).2.1 hclean
    · cases h₂
      exact hclean
  have htok : s.stream.tokens = s.stream.current :: s₁.stream.tokens := by
    rw [hn]
    exact tokens_eq_cons hs (ht ▸ by decide)
  rw [htok]
  rcases hg σ with ⟨runs, hcov⟩ | ⟨he, hcov⟩
  · exact .inl ⟨runs, .joint ht hu hcov⟩
  · refine .inr ⟨he, fun hst => ?_⟩
    obtain ⟨runs, rest, hcov, hrest⟩ := hcov hst
    exact ⟨runs, rest, .joint ht hu hcov, hrest⟩

theorem even_importTail {name : String} : Even strict (importTail n name) := by
  refine fun t s hs => .look looks_token (.ite (fun hk => ?_) fun _ => ?_)
  · exact movesFrom_joint (eq_of_beq (Bool.and_eq_true_iff.mp hk).1)
  · exact (even_importAlias _ s rfl).bind fun _ _ _ => .pure fun _ => id

theorem even_importItems : Even strict (importItems bound n) := by
  induction n with
  | zero => exact moves_outOfSteps
  | succ n ih =>
    refine fun t => .token (.ite (fun _ => ?_) fun h => ?_)
    · exact (moves_report.bind fun _ => .pure nofun) t
    · refine .plain (isPlain_of_isName (by simpa using h)) (even_importTail.next fun _ => ?_)
      refine (even_accept rfl).next fun _ => .ite (fun _ => ?_) fun _ => .pure fun _ => id
      exact ih.next fun _ => .pure fun _ => id

theorem even_importDeclaration (ht : t.kind.isPlain = true) :
    MovesAt t strict (some []) (importDeclaration n) fun _ => some [] := by
  have hf : Even strict importForm :=
    (even_accept rfl).next fun _ => .ite (fun _ => .pure fun _ => id) fun _ =>
      (even_accept rfl).next fun _ => .ite (fun _ => .pure fun _ => id) fun _ => .pure fun _ => id
  refine .token (.plain ht (hf.next fun _ => even_importItems.next fun _ => ?_))
  exact even_expectSemicolon.next fun _ => Moves.even moves_done

/-! ## Functions -/

variable {self : Rules}

theorem even_parameter (h : ClosesExpressions self) : Even false (parameter self n) := by
  have hh : Even false (parameterHint n) :=
    .look looks_token fun _ => .ite (fun _ => .pure fun _ => id) fun _ => Moves.even moves_hint
  refine .look looks_token fun _ => even_modifiers.next fun _ => hh.next fun _ => ?_
  refine (even_accept rfl).next fun _ => (even_accept rfl).next fun _ => .look looks_token fun _ => ?_
  refine (even_accept rfl).next fun _ => .ite (fun _ => ?_) fun _ => Moves.even moves_fail
  exact (even_initialValue h).next fun _ => Moves.even moves_done

theorem even_parameterItems (h : ClosesExpressions self) :
    Even false (parameterItems self bound n) := by
  induction n with
  | zero => exact moves_outOfSteps
  | succ n ih =>
    refine .look (looks_isAtEndOr _) fun _ => .ite (fun _ => .pure fun _ => id) fun _ => ?_
    apply (even_parameter h).next
    rintro (_ | item)
    · exact .pure fun _ => id
    · refine (even_accept rfl).next fun _ => .ite (fun _ => ?_) fun _ => .pure fun _ => id
      exact ih.next fun _ => .pure fun _ => id

theorem even_parameterList (h : ClosesExpressions self) : Even true (parameterList self n) := by
  apply (moves_expect_opening rfl).bind
  rintro (_ | _)
  · exact .pure nofun
  · refine ((even_parameterItems h).any).before (fun _ => ?_) fun _ _ => ?_
    · refine .closing rfl ?_
      exact .pure fun _ => id
    · refine Needs.bind (needs_expect ?_) fun _ => .pure nofun
      decide

theorem even_declaredName {fits : TokenKind → Bool} {part : String}
    (h : ∀ kind, fits kind = true → kind.isMemberName = true) :
    Even strict (declaredName fits part) := by
  apply (even_identifierOf h).next
  rintro (_ | name)
  · exact Moves.even moves_fail
  · exact .pure fun _ => id

/-- The rules that a rule is run with close their brackets. -/
structure Closes (rules : Rules) : Prop extends ClosesExpressions rules where
  statement : Even true (rules .statement)
  ifStatement : ∀ t : Token, t.kind.isPlain = true →
    MovesAt t true (some []) (rules .ifStatement) fun _ => some []

theorem even_passOver {before : Token} : Even strict (passOver before) :=
  .look looks_token fun _ => .ite
    (fun _ => moves_report.bind fun _ => moves_advance_never) fun _ => .pure fun _ => id

theorem even_statementList {closing : TokenKind} {stop : Bool} (h : Closes self) :
    Even true (statementList self closing stop n) := by
  induction n with
  | zero => exact moves_outOfSteps
  | succ n ih =>
    refine .look (looks_isAtEndOr _) fun _ => .ite (fun _ => .pure fun _ => id) fun _ => ?_
    refine .look looks_isAtNamespace fun _ => .ite (fun _ => .pure fun _ => id) fun _ => ?_
    refine .look looks_token fun _ => h.statement.next fun _ => even_passOver.next fun _ => ?_
    exact ih.next fun _ => .pure fun _ => id

theorem even_block (h : Closes self) : Even true (block self n) := by
  refine .look looks_token fun _ => .opening rfl ?_
  refine (even_statementList h).next fun _ => .closing rfl ?_
  exact Moves.even moves_done

theorem even_functionBody (h : Closes self) : Even true (functionBody self n) :=
  .look (looks_isAt _) fun _ => .ite (fun _ => even_block h) fun _ =>
    even_expectSemicolon.next fun _ => .pure fun _ => id

theorem even_functionLike {form : FunctionForm} {modifiers : Modifiers} {doc : Option String}
    (h : Closes self) : Even true (functionLike self n form start modifiers doc) := by
  refine (Moves.discard (even_expect rfl)).next fun _ => (even_accept rfl).next fun _ => ?_
  refine (even_declaredName fun _ => id).next fun _ => (even_parameterList h.toClosesExpressions).next fun _ => ?_
  refine even_hintAfterColon.next fun _ => (even_functionBody h).next fun _ => ?_
  exact Moves.even moves_done

theorem even_functionDeclaration (h : Closes self) : Even true (functionDeclaration self n) :=
  .look looks_token fun _ => even_takeDoc.next fun _ => even_functionLike h

/-! ## Class members -/

theorem even_classNames : Even strict (classNames n) := by
  induction n with
  | zero => exact moves_outOfSteps
  | succ n ih =>
    refine (Moves.even moves_classNameRule).next fun _ => (even_accept rfl).next fun _ => ?_
    exact .ite (fun _ => ih.next fun _ => .pure fun _ => id) fun _ => .pure fun _ => id

theorem even_conflictRules : Even true (conflictRules n) := by
  refine fun t => .look (looks_isAt _) fun s hs => .ite (fun hk => ?_) fun _ => even_expectSemicolon t
  have ht : t.kind = .openBrace := hs ▸ eq_of_beq hk
  exact movesAt_skipStatement (by simp [opensSkipped, ht])

theorem movesAt_traitUse (ht : t.kind.isPlain = true) :
    MovesAt t true (some []) (traitUse n) fun _ => some [] := by
  refine .token (.plain ht (even_classNames.next fun _ => even_conflictRules.next fun _ => ?_))
  exact Moves.even moves_done

theorem movesAt_enumCase (h : ClosesExpressions self) (ht : t.kind.isPlain = true) :
    MovesAt t true (some []) (enumCase self start) fun _ => some [] := by
  refine .plain ht (fun u => .token (.ite (fun _ => Moves.even moves_fail u) fun hm => ?_))
  refine .plain (isPlain_of_isMemberName (by simpa using hm)) ?_
  refine (even_initialValue h).any.before (fun _ => even_expectSemicolon.next fun _ => ?_) fun _ _ => ?_
  · exact Moves.even moves_done
  · exact needs_expectSemicolon.bind fun _ => Moves.never moves_done

/-- What stands behind a value: a comma and more, or a semicolon. -/
theorem even_constantItems {modifiers : Modifiers} (h : ClosesExpressions self) :
    Even true (constantItems self start modifiers n) := by
  induction n with
  | zero => exact moves_outOfSteps
  | succ n ih =>
    refine fun t => .token (.ite (fun _ => ?_) fun hm => ?_)
    · exact (moves_report.bind fun _ => .pure nofun) t
    · refine .plain (isPlain_of_isMemberName (by simpa using hm)) ?_
      refine (Moves.discard (even_expect rfl)).next fun _ => ?_
      refine (Moves.even h.expression).before (fun _ => even_node.next fun _ => ?_) fun _ _ => ?_
      · refine (even_accept rfl).next fun _ => .ite (fun _ => ih.next fun _ => .pure fun _ => id) fun _ => ?_
        exact even_expectSemicolon.next fun _ => .pure fun _ => id
      · refine needs_node fun _ => needs_accept (by decide) ?_
        exact needs_expectSemicolon.bind fun _ => .pure nofun

theorem even_constants {modifiers : Modifiers} (h : ClosesExpressions self)
    (ht : t.kind.isPlain = true) :
    MovesAt t true (some []) (constants self n start modifiers) fun _ => some [] := by
  have hh : Even true (constantHint n) :=
    .look looks_token fun _ => .look (looks_kindAhead 1) fun _ => .ite
      (fun _ => Moves.discard (Moves.even moves_hint)) fun _ => .pure fun _ => id
  exact .plain ht (hh.next fun _ => even_constantItems h)

theorem even_propertyItems {modifiers : Modifiers} {type : Option TypeHint} {doc : Option String}
    (h : ClosesExpressions self) : Even true (propertyItems self start modifiers type doc n) := by
  induction n with
  | zero => exact moves_outOfSteps
  | succ n ih =>
    refine .look looks_token fun _ => (even_accept rfl).next fun _ => .ite (fun _ => ?_) fun _ => ?_
    · exact moves_report.bind fun _ => .pure nofun
    · refine (even_initialValue h).any.before (fun _ => even_node.next fun _ => ?_) fun _ _ => ?_
      · refine (even_accept rfl).next fun _ => .ite (fun _ => ih.next fun _ => .pure fun _ => id) fun _ => ?_
        exact even_expectSemicolon.next fun _ => .pure fun _ => id
      · refine needs_node fun _ => needs_accept (by decide) ?_
        exact needs_expectSemicolon.bind fun _ => .pure nofun

theorem even_properties {modifiers : Modifiers} {doc : Option String} (h : ClosesExpressions self) :
    Even true (properties self n start modifiers doc) := by
  have hh : Even true (propertyHint n) :=
    .look (looks_isAt _) fun _ => .ite (fun _ => .pure fun _ => id) fun _ => Moves.even moves_hint
  exact hh.next fun _ => even_propertyItems h

theorem even_classMember (h : Closes self) : Even true (classMember self n) := by
  refine .look looks_token fun _ => even_takeDoc.next fun _ t => ?_
  refine .look (looks_isAt _) fun s hs => .ite (fun hk => ?_) fun _ => ?_
  · have ht : t.kind = .keyword .useKw := hs ▸ eq_of_beq hk
    exact .map (movesAt_traitUse (ht ▸ rfl))
  refine .look (looks_isAtWord _) fun s hs => .ite (fun hk => ?_) fun _ => ?_
  · have ht : t.kind = .identifier := hs ▸ eq_of_beq (Bool.and_eq_true_iff.mp hk).1
    exact .map (movesAt_enumCase h.toClosesExpressions (ht ▸ rfl))
  refine even_modifiers.next (fun _ t => .token ?_) t
  split
  · next ht => exact even_constants h.toClosesExpressions (ht ▸ rfl)
  · exact .map (even_functionLike h t)
  · next ht => exact .plain (ht ▸ rfl) (.pure fun _ => id)
  · refine .ite (fun _ => ?_) fun _ => even_properties h.toClosesExpressions t
    exact (moves_report.bind fun _ => .pure nofun) t

theorem even_passOverMember {before : Token} : Even strict (passOverMember before) :=
  .look looks_token fun _ => .ite
    (fun _ => moves_report.bind fun _ => moves_advance_never) fun _ => .pure fun _ => id

theorem even_classMembers (h : Closes self) : Even true (classMembers self bound n) := by
  induction n with
  | zero => exact moves_outOfSteps
  | succ n ih =>
    refine .look (looks_isAtEndOr _) fun _ => .ite (fun _ => .pure fun _ => id) fun _ => ?_
    refine .look looks_token fun _ => (even_classMember h).next fun _ => ?_
    exact even_passOverMember.next fun _ => ih.next fun _ => .pure fun _ => id

theorem even_classBody (h : Closes self) : Even true (classBody self n) := by
  apply (moves_expect_opening rfl).bind
  rintro (_ | _)
  · exact .pure nofun
  · refine (even_classMembers h).next fun _ => .closing rfl ?_
    exact .pure fun _ => id

theorem isPlain_of_classForm? {form : ClassForm} (h : classForm? t = some form) :
    t.kind.isPlain = true := by
  unfold classForm? at h
  split at h
  · next hk => rw [hk]; rfl
  · next hk => rw [hk]; rfl
  · next hk => rw [hk]; rfl
  · split at h
    · next hw =>
      rw [eq_of_beq (Bool.and_eq_true_iff.mp hw).1]
      rfl
    · cases h

theorem even_classDeclaration (h : Closes self) : Even true (classDeclaration self n) := by
  have hparents {form : ClassForm} : Even true (parentNames n form) := by
    refine (even_accept rfl).next fun _ => .ite (fun _ => .ite (fun _ => even_classNames) fun _ => ?_)
      fun _ => .pure fun _ => id
    exact .map (Moves.even moves_classNameRule)
  have hinterfaces {form : ClassForm} : Even true (interfaceNames n form) :=
    .ite (fun _ => (even_accept rfl).next fun _ => .ite (fun _ => even_classNames)
      fun _ => .pure fun _ => id) fun _ => .pure fun _ => id
  have hbacking {form : ClassForm} : Even true (backingHint n form) :=
    .ite (fun _ => Moves.discard even_hintAfterColon) fun _ => .pure fun _ => id
  refine .look looks_token fun _ => even_takeDoc.next fun _ => even_modifiers.next fun _ t => .token ?_
  split
  · next hf =>
    refine .plain (isPlain_of_classForm? hf) ((even_declaredName ?_).next fun _ => ?_)
    · rintro kind hk
      rw [eq_of_beq hk]
      rfl
    · refine hbacking.next fun _ => hparents.next fun _ => hinterfaces.next fun _ => ?_
      exact (even_classBody h).next fun _ => Moves.even moves_done
  · exact (moves_report.bind fun _ => .pure nofun) t

/-! ## Statements -/

theorem movesAt_namespaceDeclaration (h : Closes self) (ht : t.kind.isPlain = true) :
    MovesAt t true (some []) (namespaceDeclaration self n) fun _ => some [] := by
  have hn : Even true namespaceName := by
    refine fun u => .token (.ite (fun hk => ?_) fun _ => .pure fun _ => id)
    have hp : u.kind.isPlain = true := by
      rcases Bool.or_eq_true_iff.mp hk with hk | hk <;> rw [eq_of_beq hk] <;> rfl
    exact .plain hp (.pure fun _ => id)
  have he {name : Option String} : Even true (namespaceEnd name) := by
    refine .ite (fun _ => ?_) fun _ => even_expectSemicolon
    exact moves_report.bind fun _ => Moves.never even_expectSemicolon
  refine .token (.plain ht (hn.next fun _ => ?_))
  apply (moves_accept_opening rfl).bind
  rintro (_ | _)
  · refine he.next fun _ => (even_statementList h).next fun _ => Moves.even moves_done
  · refine (even_statementList h).next fun _ => .closing rfl ?_
    exact Moves.even moves_done

theorem movesAt_returnStatement (h : ClosesExpressions self) (ht : t.kind.isPlain = true) :
    MovesAt t true (some []) (returnStatement self) fun _ => some [] := by
  have hv : Even false (returnValue self) :=
    .look looks_token fun _ => .ite (fun _ => .pure fun _ => id) fun _ => Moves.even h.expression
  refine .token (.plain ht (hv.any.before (fun _ => even_expectSemicolon.next fun _ => ?_) fun _ _ => ?_))
  · exact Moves.even moves_done
  · exact needs_expectSemicolon.bind fun _ => Moves.never moves_done

theorem even_elseBranch (h : Closes self) : Even true (elseBranch self) := by
  refine fun t => .look (looks_isAt _) fun s hs => .ite (fun hk => ?_) fun _ => ?_
  · have ht : t.kind = .keyword .elseIfKw := hs ▸ eq_of_beq hk
    exact h.ifStatement t (ht ▸ rfl)
  · exact ((even_accept rfl).next fun _ => .ite (fun _ => h.statement) fun _ => .pure fun _ => id) t

theorem movesAt_ifStatement (h : Closes self) (ht : t.kind.isPlain = true) :
    MovesAt t true (some []) (ifStatement self) fun _ => some [] := by
  have hcolon : Even true refuseColon :=
    .look (looks_isAt _) fun _ => .ite (fun _ => moves_report.mono nofun) fun _ => .pure fun _ => id
  have hbranches (condition : Option NodeId) : Even true (refuseColon >>= fun _ =>
      self .statement >>= fun thenBranch => elseBranch self >>= fun elseBranch =>
        done (.ifStatement condition thenBranch elseBranch) t.start) :=
    hcolon.next fun _ => h.statement.next fun _ => (even_elseBranch h).next fun _ =>
      Moves.even moves_done
  refine .token (.plain ht (.opening rfl ?_))
  refine (Even.any (Moves.even h.expression)).before (fun _ => .closing rfl (hbranches _)) fun _ _ => ?_
  exact Needs.bind (needs_expect (by decide)) fun _ => (hbranches _).never

theorem even_expressionStatement (h : ClosesExpressions self) :
    Even true (expressionStatement self) := by
  refine .look looks_token fun _ => h.expression.before ?_ ?_
  · rintro (_ | e)
    · exact .pure nofun
    · exact even_expectSemicolon.next fun _ => Moves.even moves_done
  · rintro (_ | e) he
    · cases he
    · exact needs_expectSemicolon.bind fun _ => Moves.never moves_done

theorem movesAt_skippedStatement (ht : opensSkipped t = true) :
    MovesAt t true (some []) (skippedStatement n) fun _ => some [] :=
  (movesAt_skipStatement ht).bind fun _ => .pure fun _ => id

theorem even_statementBody (h : Closes self) : Even true (statementBody self n) := by
  have he : Even true (expressionStatement self) := even_expressionStatement h.toClosesExpressions
  have hc : Even true (classDeclaration self n) := even_classDeclaration h
  refine fun t => .token ?_
  split
  · next ht => exact .plain (ht ▸ rfl) (.pure fun _ => id)
  · next ht => exact .plain (ht ▸ rfl) (.pure fun _ => id)
  · next ht => exact .plain (ht ▸ rfl) (.pure fun _ => id)
  · next ht => exact .plain (ht ▸ rfl) (Moves.even moves_done)
  · exact even_block h t
  · next ht =>
    refine .look looks_isAtNamespace fun _ _ => .ite (fun _ => ?_) fun _ => he t
    exact movesAt_namespaceDeclaration h (ht ▸ rfl)
  · next ht => exact even_importDeclaration (ht ▸ rfl)
  · exact hc t
  · exact hc t
  · exact hc t
  · exact hc t
  · exact hc t
  · exact hc t
  · refine .look looks_isAtFunctionName_eq fun _ _ => .ite (fun _ => ?_) fun _ => he t
    exact even_functionDeclaration h t
  · next ht => exact movesAt_returnStatement h.toClosesExpressions (ht ▸ rfl)
  · next ht => exact movesAt_ifStatement h (ht ▸ rfl)
  · next ht => exact movesAt_skippedStatement (by simp [opensSkipped, ht])
  · next ht =>
    refine .look (looks_kindAhead 1) fun _ _ => .ite (fun _ => he t) fun _ => ?_
    exact movesAt_skippedStatement (by simp [opensSkipped, ht])
  · next ht =>
    refine .look looks_isAtEnum fun _ _ => .ite (fun _ => hc t) fun _ => .ite (fun hw => ?_) fun _ => he t
    exact movesAt_skippedStatement (by rw [opensSkipped, hw, ht]; rfl)
  · exact he t

theorem closes_rules (n : Nat) : Closes (rules n) := by
  induction n with
  | zero =>
    exact
      { expression := moves_outOfSteps
        operand := fun _ => moves_outOfSteps
        unary := moves_outOfSteps
        primary := moves_outOfSteps
        statement := moves_outOfSteps
        ifStatement := fun _ _ => moves_outOfSteps _ }
  | succ n ih =>
    exact
      { expression := moves_expression ih.toClosesExpressions
        operand := fun _ => moves_operand ih.toClosesExpressions
        unary := moves_unary ih.toClosesExpressions
        primary := moves_primary ih.toClosesExpressions
        statement := .nested moves_advance_never (even_statementBody ih)
        ifStatement := fun _ ht => movesAt_ifStatement ih ht }

/-- The statements of an accepted source are read up to its end without a report. -/
theorem clean_statements {source : List Char} (h : (Parsed.ofSource source).diagnostics = []) :
    ∃ statements s, (statementList (rules (Grammar.bound source.length)) .endOfFile false
        (Grammar.bound source.length)).run (.atFirst source) = some (statements, s) ∧
      s.Clean ∧ s.AtEnd ∧ Parsed.ofSource source =
        ⟨s.arena.added (.sourceFile statements) 0 s.stream.current.stop, s.arena.size, []⟩ := by
  obtain ⟨statements, s, hlist, heof, hparsed⟩ := run_statements source
  have hw : Works (.atFirst source, []) (s, Item.many statements) :=
    forms_statementList (builds_rules _) _ _ [] _ _ (bare_atFirst source) rfl hlist
  have hnoted : s.Noted := (hw.preserves (fun _ _ => Work.accounted) ⟨nofun, nofun⟩).noted
  have hd : s.diagnostics = #[] := by
    rw [hparsed] at h
    simpa using h
  refine ⟨statements, s, hlist, ⟨hd, ?_⟩, heof, ?_⟩
  · by_contra hf
    exact hnoted hf hd
  · rw [hparsed, hd]

/-- An accepted source is covered to its end, or up to a statement that breaks off with it. -/
theorem covers_ofSource {source : List Char} (h : (Parsed.ofSource source).diagnostics = []) :
    ∃ runs rest, Covers runs ([], Token.ofSource source) ([], rest) ∧
      ((∃ e, rest = [e] ∧ e.kind = .endOfFile) ∨ Unfinished rest) := by
  obtain ⟨statements, s, hlist, hclean, hend, -⟩ := clean_statements h
  have hclosed : Token.Closed (State.atFirst source).stream.tokens :=
    tokens_atFirst source ▸ (Token.scans_ofSource source).closed
  obtain ⟨hl, -, hm⟩ := even_statementList (closes_rules _) _ _ rfl statements s hlist
  obtain ⟨k, hk, hcov⟩ := hm hclosed hclean [] rfl
  obtain rfl := Option.some.inj hk
  rcases hcov [] with ⟨runs, hcov⟩ | ⟨-, hcov⟩
  · have hs : s.stream.tokens = [s.stream.current] := by
      rw [TokenStream.tokens, (hclosed.of_suffix hl (List.cons_ne_nil _ _)).eq_nil hend]
    rw [tokens_atFirst, hs] at hcov
    exact ⟨runs, _, hcov, .inl ⟨_, rfl, hend⟩⟩
  · obtain ⟨runs, rest, hcov, hu⟩ := hcov rfl
    rw [tokens_atFirst] at hcov
    exact ⟨runs, rest, hcov, .inr hu⟩

end Grammar

open Grammar

/-- Brackets in an accepted source match but in the runs of tokens that are skipped. If they match
there they match everywhere, except for a skipped statement that breaks off with the source: only in
such a statement a quoted text can run up to the end of the source. -/
theorem Parsed.bracketed_of_accepted {source : List Char} (h : (ofSource source).diagnostics = []) :
    ∃ runs front rest, Token.ofSource source = front ++ rest ∧
      Covers runs ([], front ++ rest) ([], rest) ∧
      ((∃ e, rest = [e] ∧ e.kind = .endOfFile ∧
          ∀ t, [t, e] <:+ Token.ofSource source → t.kind ≠ .unknown) ∨ Unfinished rest) ∧
      ((∀ run ∈ runs, Token.WellBracketed run) → Token.WellBracketed front) := by
  obtain ⟨runs, rest, hc, hrest⟩ := covers_ofSource h
  obtain ⟨front, hf⟩ := hc.suffix
  refine ⟨runs, front, rest, hf.symm, ?_, hrest.imp_left ?_, fun hr => ?_⟩
  · rw [hf]
    exact hc
  · rintro ⟨e, hr, he⟩
    exact ⟨e, hr, he, fun t ht => hc.last_ne_unknown hr he ht⟩
  · obtain ⟨front', hf', ha⟩ := hc.awaited hr
    obtain rfl : front = front' := List.append_cancel_right (hf.trans hf')
    exact ha

theorem Parsed.bracketed_of_accepted_closure :
    let source := "<?php if ($a) \x7b $f = function () \x7b return [1]; \x7d; \x7d".toList
    (ofSource source).diagnostics = [] ∧
      ∃ runs front rest, Token.ofSource source = front ++ rest ∧
        Covers runs ([], front ++ rest) ([], rest) ∧
        ((∃ e, rest = [e] ∧ e.kind = .endOfFile ∧
            ∀ t, [t, e] <:+ Token.ofSource source → t.kind ≠ .unknown) ∨ Unfinished rest) ∧
        ((∀ run ∈ runs, Token.WellBracketed run) → Token.WellBracketed front) := by
  intro source
  have hd : (ofSource source).diagnostics = [] := by decide +kernel
  exact ⟨hd, bracketed_of_accepted hd⟩

/-- A skipped statement may break off with the source, in a bracket or in a quoted text, and a bracket
in a skipped run may be closed by one of another kind. -/
theorem Parsed.accepted_not_bracketed :
    (∀ source ∈ ["<?php echo (1", "<?php foreach ($x as $y) \x7b f();",
        "<?php $f = function () \x7b (] \x7d;"],
      (ofSource source.toList).diagnostics = [] ∧
        ¬ Token.WellBracketed (Token.ofSource source.toList)) ∧
    (ofSource "<?php echo \"abc".toList).diagnostics = [] ∧
      ((Token.ofSource "<?php echo \"abc".toList).map fun t => (t.kind, t.start, t.stop)) =
        [(.openTag, 0, 5), (.identifier, 6, 10), (.unknown, 11, 15), (.endOfFile, 15, 15)] := by
  decide +kernel

end PhpAtlas
