import PhpAtlas.Parsed
import PhpAtlas.Proofs.Reading.Declarations
import PhpAtlas.Proofs.Tree.Forest

/-! # Sources are read to their end

The rules go down by rank between two tokens, and a token outweighs all ranks.
So a bound on the nesting that the length of the source gives is never met, and
the list of statements of a source ends at the end of the file.
-/

namespace PhpAtlas

namespace Grammar

variable {t : Token} {k n : Nat} {self : Rules}

/-! ## Statements -/

theorem fits_returnStatement (he : 0 < k → Fits (k - 1) (self .expression))
    (ht : t.kind ≠ .endOfFile) : FitsAt t k (returnStatement self) := by
  refine .token (.advance ht fun hk => ?_)
  have hv : Fits (k - 1) (returnValue self) :=
    looks_token.fits.bind fun _ => .ite (fun _ => .pure) fun _ => he hk
  exact hv.bind fun _ => fits_expectSemicolon.bind fun _ => fits_done

theorem fits_refuseColon : Fits k refuseColon :=
  (looks_isAt _).fits.bind fun _ => .ite (fun _ => fits_report) fun _ => .pure

theorem fits_elseBranch (hst : Fits k (self .statement))
    (hi : 0 < k → Fits k (self .ifStatement)) : Fits k (elseBranch self) := by
  refine fun t => .isAt ?_
  split
  · next h =>
    have ht : t.kind = .keyword .elseIfKw := eq_of_beq h
    exact .of_pos (ht ▸ by decide) fun hk => hi hk t
  · exact (fits_accept.bind fun _ => .ite (fun _ => hst) fun _ => .pure) t

theorem fits_ifStatement (he : Fits (k - 1) (self .expression))
    (hst : Fits (k - 1) (self .statement)) (hi : 0 < k - 1 → Fits (k - 1) (self .ifStatement)) :
    Fits k (ifStatement self) := by
  refine looks_token.fits.bind fun _ => .advance ?_
  refine fits_expect.discard.bind fun _ => he.bind fun _ => fits_expect.discard.bind fun _ => ?_
  refine fits_refuseColon.bind fun _ => hst.bind fun _ => ?_
  exact (fits_elseBranch hst hi).bind fun _ => fits_done

theorem fits_expressionStatement (he : Fits k (self .expression)) :
    Fits k (expressionStatement self) := by
  refine looks_token.fits.bind fun _ => ?_
  apply he.bind
  intro r
  cases r with
  | none => exact .pure
  | some e => exact fits_expectSemicolon.bind fun _ => fits_done

theorem fits_skippedStatement (hn : k < n) : Fits k (skippedStatement n) :=
  (fits_skipStatement hn).bind fun _ => .pure

theorem fits_statementBody (he : Fits k (self .expression))
    (hst : 0 < k → Fits (k - 1) (self .statement)) (hi : 0 < k → Fits (k - 1) (self .ifStatement))
    (hn : k < n) : Fits k (statementBody self n) := by
  have he' : 0 < k → Fits (k - 1) (self .expression) := fun _ => he.mono (Nat.sub_le ..)
  refine fun t => .token ?_
  by_cases ht : t.kind = .endOfFile
  · rw [ht]
    exact fits_expressionStatement he t
  · split
    · exact (fits_advance.bind fun _ => .pure) t
    · exact (fits_advance.bind fun _ => .pure) t
    · exact (fits_advance.bind fun _ => .pure) t
    · exact (fits_advance.bind fun _ => fits_done) t
    · next h => exact fitsAt_block h hst hn
    · refine .look looks_isAtNamespace fun _ _ => ?_
      split
      · exact fitsAt_namespaceDeclaration ht hst hn
      · exact fits_expressionStatement he t
    · exact fits_importDeclaration hn t
    · exact fits_classDeclaration he' hst hn t
    · exact fits_classDeclaration he' hst hn t
    · exact fits_classDeclaration he' hst hn t
    · exact fits_classDeclaration he' hst hn t
    · exact fits_classDeclaration he' hst hn t
    · exact fits_classDeclaration he' hst hn t
    · next h =>
      obtain ⟨g, hg⟩ := looks_isAtFunctionName
      refine .look hg fun _ _ => ?_
      split
      · exact fitsAt_functionDeclaration h he' hst hn
      · exact fits_expressionStatement he t
    · exact fits_returnStatement he' ht
    · refine .of_pos ht fun hk => fits_ifStatement (he' hk) (hst hk) (fun _ => hi hk) t
    · exact fits_skippedStatement hn t
    · refine .look (looks_kindAhead 1) fun _ _ => ?_
      split
      · exact fits_expressionStatement he t
      · exact fits_skippedStatement hn t
    · refine .look looks_isAtEnum fun _ _ => ?_
      split
      · exact fits_classDeclaration he' hst hn t
      · split
        · exact fits_skippedStatement hn t
        · exact fits_expressionStatement he t
    · exact fits_expressionStatement he t

theorem fits_statement (he : Fits k (self .expression))
    (hst : 0 < k → Fits (k - 1) (self .statement)) (hi : 0 < k → Fits (k - 1) (self .ifStatement))
    (hn : k < n) : Fits k (statement self n) :=
  .nested fits_advance (fits_statementBody he hst hi hn)

/-! ## The bound on nesting -/

/-- A goal that another one comes to without reading a token ranks below it. -/
def Goal.rank : Goal → Nat
  | primary => 2
  | unary => 3
  | operand _ => 4
  | expression => 5
  | statement => 6
  | ifStatement => 7

theorem fits_rules {goal : Goal} (h : 8 * k + goal.rank ≤ n) : Fits k (rules n goal) := by
  induction n generalizing k goal with
  | zero => cases goal <;> simp [Goal.rank] at h
  | succ n ih =>
    have below (goal' : Goal) (h' : goal'.rank < goal.rank) : Fits k (rules n goal') :=
      ih (by omega)
    have ahead (goal' : Goal) (hk : 0 < k) : Fits (k - 1) (rules n goal') :=
      ih (by cases goal <;> cases goal' <;> simp only [Goal.rank] at h ⊢ <;> omega)
    have hn : k < n := by cases goal <;> simp only [Goal.rank] at h <;> omega
    cases goal with
    | expression => exact fits_expression (ahead _) (below (.operand 0) (by decide))
    | operand level =>
      exact fits_operand (below .unary (by simp [Goal.rank])) (ahead _) (fun hk _ => ahead _ hk) hn
    | unary => exact fits_unary (ahead _) (below .primary (by decide)) (ahead _) hn
    | primary => exact fits_primary (ahead _) (ahead _) hn
    | statement => exact fits_statement (below .expression (by decide)) (ahead _) (ahead _) hn
    | ifStatement =>
      refine fits_ifStatement ?_ ?_ (fun hk => ahead _ (by omega))
      · exact (below .expression (by decide)).mono (Nat.sub_le ..)
      · exact (below .statement (by decide)).mono (Nat.sub_le ..)

/-! ## Loops -/

/-- The loops of the grammar, with what they are called with. -/
inductive Loop
  | statements (closing : TokenKind) (stopAtNamespace : Bool)
  | members
  | parameters
  | arguments
  | entries (closing : TokenKind)
  | importItems
  | groupItems (shared : String)
  | suffixes (start : Nat) (e : NodeId)
  | skipRun (depth : Nat)
  | skipStatement (depth : Nat)

/-- The loop with a limit on its rounds. -/
def Loop.rounds (self : Rules) (bound : Nat) (limit : Nat) : Loop → Parse Unit
  | statements closing stop => discard (statementList self closing stop limit)
  | members => discard (classMembers self bound limit)
  | parameters => discard (parameterItems self bound limit)
  | arguments => discard (argumentList self limit)
  | entries closing => discard (arrayEntries self closing limit)
  | importItems => discard (Grammar.importItems bound limit)
  | groupItems shared => discard (Grammar.groupItems shared limit)
  | suffixes start e => discard (Grammar.suffixes self bound start limit e)
  | skipRun depth => discard (Grammar.skipRun limit depth)
  | skipStatement depth => discard (Grammar.skipStatement limit depth)

theorem run_discard {α : Type} (m : Parse α) (s : State) :
    (discard m).run s = (m.run s).map fun r => ((), r.2) := by
  rw [Functor.discard, map_const, Function.comp_apply, StateT.run_map]
  rfl

section Rounds

variable {α ι : Type} {L : ι → Nat → Parse α} {bound : Nat}

/-- What a loop gives does not matter for its rounds. -/
theorem Turns.toLoop (h : Turns k L) (c : ι → Loop)
    (hc : ∀ i n, (c i).rounds self bound n = discard (L i n)) (i : ι) {s : State} (hs : Ready k s) :
    Round (fun (loop : Loop) n => loop.rounds self bound n) s
      (fun n => (c i).rounds self bound (n + 1)) s := by
  rcases h i s hs with ⟨a, s', hl, hr⟩ | ⟨i', f, s', hl, hlt, hr⟩
  · refine .inl ⟨(), s', hl, fun n => ?_⟩
    simp only [hc, run_discard, hr, Option.map_some]
  · refine .inr ⟨c i', id, s', hl, hlt, fun n => ?_⟩
    simp only [hc, run_discard, hr, id_map, StateT.run_map, Option.map_eq_map, Option.map_map]
    rfl

theorem turns_rounds (hb : k < bound) (he : Fits k (self .expression))
    (hp : Fits k (self .primary)) (hst : Fits k (self .statement)) :
    Turns k fun (loop : Loop) n => loop.rounds self bound n := by
  intro loop s hs
  cases loop with
  | statements closing stop =>
    exact (turns_statementList hst).toLoop (fun _ => .statements closing stop) (fun _ _ => rfl) () hs
  | members => exact (turns_classMembers he hst hb).toLoop (fun _ => .members) (fun _ _ => rfl) () hs
  | parameters =>
    exact (turns_parameterItems he hb).toLoop (fun _ => .parameters) (fun _ _ => rfl) () hs
  | arguments => exact (turns_argumentList he).toLoop (fun _ => .arguments) (fun _ _ => rfl) () hs
  | entries closing =>
    exact (turns_arrayEntries he).toLoop (fun _ => .entries closing) (fun _ _ => rfl) () hs
  | importItems => exact (turns_importItems hb).toLoop (fun _ => .importItems) (fun _ _ => rfl) () hs
  | groupItems shared =>
    exact turns_groupItems.toLoop (fun _ => .groupItems shared) (fun _ _ => rfl) () hs
  | suffixes start e =>
    have he' : 0 < k → Fits (k - 1) (self .expression) := fun _ => he.mono (Nat.sub_le ..)
    have hp' : 0 < k → Fits (k - 1) (self .primary) := fun _ => hp.mono (Nat.sub_le ..)
    exact (turns_suffixes he' hp' hb).toLoop (.suffixes start) (fun _ _ => rfl) e hs
  | skipRun depth => exact turns_skipRun.toLoop .skipRun (fun _ _ => rfl) depth hs
  | skipStatement depth => exact turns_skipStatement.toLoop .skipStatement (fun _ _ => rfl) depth hs

end Rounds

/-! ## Whole sources -/

/-- The state before the first token of a source. -/
abbrev State.before (source : List Char) : State := { stream := .ofSource source }

/-- The node at `root` is the last one, and stands for the source up to its end. -/
def State.EndsWith (s : State) (root : NodeId) : Prop :=
  s.arena.size = root + 1 ∧ ∃ statements parent,
    s.arena.node? root = some ⟨.sourceFile statements, 0, s.stream.current.stop, parent⟩

theorem yields_sourceFile (source : List Char) (hn : bound source.length ≤ n) :
    Yields (sourceFile n) (.before source) fun root s =>
      Later (.before source) s ∧ s.stream.current.kind = .endOfFile ∧ s.EndsWith root := by
  have hs : Ready (source.length + 1) (.before source) :=
    ⟨TokenStream.closed_ofSource source, TokenStream.left_ofSource_le source⟩
  have ht : (State.before source).stream.current.kind ≠ .endOfFile := nofun
  refine (spendsAt_advance ht _ hs rfl).bind fun _ s₁ h₁ => ?_
  have hb : 8 * source.length + 16 ≤ n := hn
  have hst : Fits source.length (rules n .statement) := fits_rules (by simp only [Goal.rank]; omega)
  have hlist : Yields (statementList (rules n) .endOfFile false n) s₁ fun _ s₂ =>
      Later s₁ s₂ ∧ s₂.stream.current.kind = .endOfFile := by
    obtain ⟨found, s₂, hr, hl⟩ :=
      (fits_statementList hst (show source.length < n by omega)).yields (hs.of_lt h₁.1 h₁.2)
    exact ⟨found, s₂, hr, hl, (statementList_stops hr).elim id id⟩
  refine hlist.bind fun statements s₂ ⟨hl, heof⟩ => ?_
  obtain ⟨q, hq⟩ := Arena.exists_node?_added s₂.arena (.sourceFile statements) 0
    (max s₂.stream.current.stop 0)
  refine ⟨s₂.arena.size, _, rfl, h₁.1.trans hl, heof, Arena.size_added, statements, q, ?_⟩
  exact hq.trans (by rw [Nat.max_zero])

end Grammar

open Grammar

theorem getLast?_ofSource {source : List Char} {s : State} (h : Later (.before source) s)
    (heof : s.stream.current.kind = .endOfFile) :
    (Token.ofSource source).getLast? = some s.stream.current := by
  have hc := (TokenStream.closed_ofSource source).of_suffix h (List.cons_ne_nil _ _)
  have hn := (Token.scans_ofSource source).closed.ne_nil
  obtain ⟨front, hf⟩ := h
  rw [TokenStream.tokens, hc.eq_nil heof] at hf
  have hl := congrArg List.getLast? hf
  rw [List.getLast?_concat] at hl
  cases hs : Token.ofSource source with
  | nil => exact absurd hs hn
  | cons t ts =>
    rw [hl, ← List.getLast?_cons_cons, ← hs]
    rfl

/-- Reading a source comes to an end at the end of the file, with the source's node as the last
one, and no bound above the one that is used changes that. From any place on, a round of a loop is
the last one or reads a token. -/
theorem reading_ends (source : List Char) (n : Nat) (hn : bound source.length ≤ n) :
    (∃ root s, (sourceFile n).run (.before source) = some (root, s) ∧
      s.stream.current.kind = .endOfFile ∧
      (Token.ofSource source).getLast? = some s.stream.current ∧
      s.EndsWith root ∧
      (n = bound source.length → Parsed.ofSource source = ⟨s.arena, root, s.diagnostics.toList⟩)) ∧
    ∀ (loop : Loop) (s : State), s.stream.tokens <:+ Token.ofSource source →
      Round (fun (loop : Loop) limit => loop.rounds (rules n) n limit) s
        (fun limit => loop.rounds (rules n) n (limit + 1)) s := by
  refine ⟨?_, fun loop s hs => ?_⟩
  · obtain ⟨root, s, hr, hlater, heof, hend⟩ := yields_sourceFile source hn
    refine ⟨root, s, hr, heof, getLast?_ofSource hlater heof, hend, ?_⟩
    rintro rfl
    rw [Parsed.ofSource, hr]
  · have hc := (Token.scans_ofSource source).closed
    have hlen : (Token.ofSource source).length ≤ source.length + 1 :=
      (Token.scans_ofSource source).length_le
    have hle := hs.length_le
    simp only [TokenStream.tokens, List.length_cons] at hle
    have hleft : s.stream.left ≤ source.length := by
      simp only [TokenStream.left]
      omega
    have hb : 8 * source.length + 16 ≤ n := hn
    have hf (goal : Goal) : Fits source.length (rules n goal) :=
      fits_rules (by cases goal <;> simp only [Goal.rank] <;> omega)
    have hs' : Ready source.length s := ⟨hc.of_suffix hs (List.cons_ne_nil _ _), hleft⟩
    exact turns_rounds (by omega) (hf _) (hf _) (hf _) loop s hs'

theorem reading_ends_of_open_call :
    bound "<?php f(1,".toList.length ≤ 96 ∧
      ∃ root s, (sourceFile 96).run (.before "<?php f(1,".toList) = some (root, s) ∧
        s.stream.current.kind = .endOfFile ∧ s.EndsWith root := by
  have hn : bound "<?php f(1,".toList.length ≤ 96 := by decide +kernel
  obtain ⟨⟨root, s, hr, heof, -, hend, -⟩, -⟩ := reading_ends _ 96 hn
  exact ⟨hn, root, s, hr, heof, hend⟩

end PhpAtlas
