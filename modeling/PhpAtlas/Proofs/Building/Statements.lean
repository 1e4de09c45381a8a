import PhpAtlas.Proofs.Building.Declarations
import PhpAtlas.Proofs.Reading.Sources

/-! # How sources are formed

Statements that have no node leave nothing. The rules are tied together, and
what becomes of a source is a sequence of steps from its first token on.
-/

namespace PhpAtlas

namespace Grammar

open Item

variable {n : Nat} {t : Token} {self : Rules}

/-! ## Statements -/

theorem formsAt_returnStatement (h : Builds self) (ht : t.kind ≠ .endOfFile) :
    FormsAt t (returnStatement self) [] one := by
  have hv : Forms (returnValue self) [] opt :=
    looks_token.quiet.next fun _ => .ite (.pure (.refl _)) h.expression.opt
  refine .note fun _ => .begin ht (hv.next fun value => quiet_expectSemicolon.next fun _ => ?_)
  cases value with
  | none => exact forms_done [] trivial rfl fun _ => trivial
  | some value => exact forms_done [some value] trivial rfl fun _ => trivial

theorem forms_elseBranch (h : Builds self) : Forms (elseBranch self) [] opt := by
  refine fun t => .look (looks_isAt _) fun s hs => .ite (fun he => ?_) fun _ => ?_
  · have ht : t.kind = .keyword .elseIfKw := hs ▸ eq_of_beq he
    exact h.ifStatement t (ht ▸ by decide)
  · exact .of (quiet_accept.next fun _ => .ite h.statement (.pure (.refl _)))

theorem formsAt_ifStatement (h : Builds self) (ht : t.kind ≠ .endOfFile) :
    FormsAt t (ifStatement self) [] one := by
  refine .note fun _ => .begin ht (quiet_expect.discard.next fun _ => ?_)
  refine h.expression.next fun condition => quiet_expect.discard.next fun _ => ?_
  refine inherited_quiet.refuseColon.next fun _ => ?_
  refine h.statement.next fun thenBranch => (forms_elseBranch h).next fun elseBranch => ?_
  refine .of_eq ?_ (forms_done (condition :: (thenBranch.toList.map some ++
    elseBranch.toList.map some)) trivial ?_ fun hw => hw _ List.mem_cons_self)
  · cases thenBranch <;> cases elseBranch <;> rfl
  · cases thenBranch <;> cases elseBranch <;> rfl

theorem forms_expressionStatement (h : Builds self) :
    Forms (expressionStatement self) [] opt := by
  refine fun t => .note fun _ => .first (h.expression t) (.pure (List.nil_sublist _)) fun e => ?_
  exact quiet_expectSemicolon.next fun _ => .opt (forms_done [some e] trivial rfl fun _ => rfl)

theorem forms_skippedStatement : Forms (skippedStatement n) [] opt :=
  inherited_quiet.skipStatement.next fun _ => .pure (.refl _)

theorem forms_statementBody (h : Builds self) : Forms (statementBody self n) [] opt := by
  have hskip {t : Token} : FormsAt t (advance >>= fun _ => return none) [] opt :=
    .of (quiet_advance.next fun _ => .pure (.refl _))
  have hclass {t : Token} : FormsAt t (classDeclaration self n) [] opt :=
    .of (forms_classDeclaration h).opt
  have hexpression {t : Token} : FormsAt t (expressionStatement self) [] opt :=
    .of (forms_expressionStatement h)
  have hskipped {t : Token} : FormsAt t (skippedStatement n) [] opt := .of forms_skippedStatement
  refine fun t => .token fun _ => ?_
  split
  · exact hskip
  · exact hskip
  · exact hskip
  · next hk =>
    exact .marked (.begin (hk ▸ by decide) (.opt (forms_done [] trivial rfl fun _ => trivial)))
  · next hk => exact (formsAt_block h hk).opt
  · next hk =>
    refine .look looks_isAtNamespace fun _ _ => .ite (fun _ => ?_) fun _ => hexpression
    exact (formsAt_namespaceDeclaration h (hk ▸ by decide)).opt
  · next hk => exact (formsAt_importDeclaration (hk ▸ by decide)).opt
  · exact hclass
  · exact hclass
  · exact hclass
  · exact hclass
  · exact hclass
  · exact hclass
  · next hk =>
    obtain ⟨g, hg⟩ := looks_isAtFunctionName
    refine .look hg fun _ _ => .ite (fun _ => ?_) fun _ => hexpression
    exact (formsAt_functionDeclaration h hk).opt
  · next hk => exact (formsAt_returnStatement h (hk ▸ by decide)).opt
  · next hk => exact (formsAt_ifStatement h (hk ▸ by decide)).opt
  · exact hskipped
  · exact .look (looks_kindAhead 1) fun _ _ => .ite (fun _ => hexpression) fun _ => hskipped
  · refine .look looks_isAtEnum fun _ _ => .ite (fun _ => hclass) fun _ => ?_
    exact .ite (fun _ => hskipped) fun _ => hexpression
  · exact hexpression

theorem builds_rules (n : Nat) : Builds (rules n) := by
  induction n with
  | zero =>
    exact ⟨forms_outOfSteps, fun _ => forms_outOfSteps, forms_outOfSteps, forms_outOfSteps,
      forms_outOfSteps, fun _ _ => .of forms_outOfSteps⟩
  | succ n ih =>
    exact
      { expression := forms_expression ih
        operand := fun _ => forms_operand ih
        unary := forms_unary ih
        primary := forms_primary ih
        statement := .nested quiet_advance (forms_statementBody ih) (List.nil_sublist _)
        ifStatement := fun _ ht => (formsAt_ifStatement ih ht).opt }

/-! ## Whole sources -/

/-- The state at the first token of a source. -/
def State.atFirst (source : List Char) : State :=
  { State.before source with stream := (TokenStream.ofSource source).next }

theorem tokens_atFirst (source : List Char) :
    (State.atFirst source).stream.tokens = Token.ofSource source := by
  obtain ⟨t, ts, hts⟩ := List.exists_cons_of_ne_nil (Token.scans_ofSource source).closed.ne_nil
  simp only [State.atFirst, TokenStream.ofSource, TokenStream.ofTokens, TokenStream.tokens,
    TokenStream.next, hts]

theorem bare_ofTokens {tokens : List Token} (h : ∀ t ∈ tokens, t.Bare) :
    State.Bare { stream := .ofTokens tokens } := by
  intro t ht
  rcases List.mem_cons.mp ht with rfl | ht
  · exact ⟨nofun, nofun⟩
  · exact h t ht

theorem bare_before (source : List Char) : (State.before source).Bare :=
  bare_ofTokens (Token.scans_ofSource source).bare

theorem bare_atFirst (source : List Char) : (State.atFirst source).Bare :=
  (bare_before source).later (TokenStream.tokens_next_suffix _)

/-- The statements of a source are read from its first token to its last, and then become a node. -/
theorem run_statements (source : List Char) : ∃ statements s,
    (statementList (rules (Grammar.bound source.length)) .endOfFile false
        (Grammar.bound source.length)).run (.atFirst source) = some (statements, s) ∧
      s.stream.current.kind = .endOfFile ∧ Parsed.ofSource source =
        ⟨s.arena.added (.sourceFile statements) 0 s.stream.current.stop, s.arena.size,
          s.diagnostics.toList⟩ := by
  obtain ⟨root, s'', hsource, -, heof, -⟩ := yields_sourceFile source le_rfl
  obtain ⟨_, s, hadvance, hrest⟩ := run_bind_eq_some hsource
  obtain ⟨statements, s', hlist, hnode⟩ := run_bind_eq_some hrest
  cases hadvance
  cases hnode
  refine ⟨statements, s', hlist, heof, ?_⟩
  rw [Parsed.ofSource, hsource]
  show (⟨s'.arena.added (.sourceFile statements) 0 (max s'.stream.current.stop 0), s'.arena.size,
    s'.diagnostics.toList⟩ : Parsed) = _
  rw [Nat.max_zero]

/-- A source is worked on from its first token to its last. -/
theorem works_ofSource (source : List Char) : ∃ statements s,
    Works (.atFirst source, []) (s, many statements) ∧ s.stream.current.kind = .endOfFile ∧
      Parsed.ofSource source =
        ⟨s.arena.added (.sourceFile statements) 0 s.stream.current.stop, s.arena.size,
          s.diagnostics.toList⟩ := by
  obtain ⟨statements, s, hlist, heof, he⟩ := run_statements source
  have hw : Works (.atFirst source, []) (s, many statements) :=
    forms_statementList (builds_rules _) _ _ [] _ _ (bare_atFirst source) rfl hlist
  exact ⟨statements, s, hw, heof, he⟩

end Grammar

end PhpAtlas
