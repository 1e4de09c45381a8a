import PhpAtlas.Proofs.Operators.Climbing

/-! # Precedence in sources

Rules group what they read by induction on their steps. So every binary operator of a
source groups with its neighbours as the levels say, wherever it stands.
-/

namespace PhpAtlas

namespace Grammar

variable {ts : List Token} {s s' s₁ s₂ : State} {e : NodeId} {r : Option NodeId} {self : Rules}

/-! ## Assignments -/

/-- The target of an assignment reads as what stands in front of the equals sign. -/
theorem assigns_noded {value : Option NodeId} {byRef : Bool} (hs : s.On ts) (hs₁ : s₁.On ts)
    (he : ReadsBetween ts s s₁ e) (hk : s₁.stream.current.kind = .equals)
    (hs₂ : Passed ts s₁.next s₂) :
    (s₂.noded (.assign (some e) value byRef) s.stream.current.start).arena.Assigns ts
      s₂.arena.size e := by
  have hne : s₁.stream.current.kind ≠ .endOfFile := by
    rw [hk]
    nofun
  obtain ⟨xs, hx, hreads⟩ := he
  obtain ⟨ys, hy⟩ := hs₂.later
  have htokens := hs₁.tokens_around hne hx hy.symm
  refine ⟨⟨s.stream.current.start, max s₂.readTo s.stream.current.start⟩, xs, s₁.stream.current, ys,
    ?_, hs.tokens_span hs₂.on htokens, hk, hreads.mono (hs₂.kept.trans Arena.prefixOf_added)⟩
  rw [State.span?_noded, if_pos rfl]

namespace Groups

variable (h : Groups ts self)

include h

/-- In front of an equals sign there is no conditional, since that is read to its end. -/
theorem reads_conditional (hs : s.On ts) (hr : (conditional self).run s = some (some e, s'))
    (hclean : s'.Clean) (hk : s'.stream.current.kind = .equals) : ReadsBetween ts s s' e := by
  have hc := composed_passes ts
  rw [conditional, looks_token.run_bind] at hr
  obtain ⟨condition, s₁, hcondition, hr⟩ := run_bind_eq_some hr
  have hs₁ := (h.passes (.operand 0) s condition s₁ hs hcondition).on
  cases condition with
  | none => cases hr
  | some condition =>
    by_cases hq : s₁.stream.current.kind = .question
    · rw [run_bind_of_eq (run_accept_of_kind hq)] at hr
      obtain ⟨a, s₂, htrue, hr⟩ := run_bind_eq_some hr
      obtain ⟨_, s₃, hcolon, hr⟩ := run_bind_eq_some hr
      obtain ⟨b, s₄, hfalse, hr⟩ := run_bind_eq_some hr
      have hs₂ := (hc.whenTrue h.passesExpressions _ a s₂ hs₁.next htrue).on
      have hs₃ := (hc.discard hc.expect s₂ _ s₃ hs₂ hcolon).on
      -- the last part is an expression, which would have taken the equals sign
      cases hr
      exact absurd hk (h.expression s₃ b s₄ hs₃ hfalse hclean)
    · rw [run_bind_of_eq (run_accept_of_ne hq)] at hr
      cases hr
      exact (h.operand 0 s e s' hs hcondition).reads

/-- The value of an assignment is read to its end, and the node is added behind it. -/
theorem passed_value {payloadOf : Option NodeId → Payload (Option NodeId)} {start : Nat}
    (hs : Passed ts s s₁) (hn : ∀ value s₂, Passed ts s₁ s₂ →
      Settled ts (s₂.noded (payloadOf value) start) s₂.arena.size (payloadOf value))
    (hr : (self .expression >>= fun value => done (payloadOf value) start).run s₁ = some (r, s')) :
    Passed ts s s' ∧ (s'.Clean → s'.stream.current.kind ≠ .equals) := by
  obtain ⟨value, s₂, hvalue, hr⟩ := run_bind_eq_some hr
  have hs₂ := h.passes .expression s₁ value s₂ hs.on hvalue
  obtain rfl : s' = s₂.noded (payloadOf value) start := by
    cases hr
    rfl
  exact ⟨(hs.trans hs₂).trans (.noded hs₂.on (hn value s₂ hs₂)), h.expression s₁ value s₂ hs.on hvalue⟩

theorem passes_assignment (hs : s.On ts) (hr : (assignment self).run s = some (r, s')) :
    Passed ts s s' ∧ (s'.Clean → s'.stream.current.kind ≠ .equals) := by
  have hc := composed_passes ts
  rw [assignment, looks_token.run_bind] at hr
  obtain ⟨target, s₁, htarget, hr⟩ := run_bind_eq_some hr
  have hpassed := hc.conditional h.passesExpressions s target s₁ hs htarget
  have hnext : Passed ts s s₁.next := hpassed.trans (.next hpassed.on)
  cases target with
  | none =>
    cases hr
    -- a target is missing only where that has been reported
    refine ⟨hpassed, fun hclean => ?_⟩
    obtain ⟨-, -, hfound⟩ := moves_conditional h.closes _ s rfl none s' htarget
    obtain ⟨_, hk, -⟩ := hfound hs.aligned.closed hclean [] rfl
    cases hk
  | some target =>
    rw [looks_token.run_bind] at hr
    by_cases hk : s₁.stream.current.kind = .equals
    · rw [run_bind_of_eq (run_accept_of_kind hk)] at hr
      obtain ⟨byRef, s₂, hbyRef, hr⟩ := run_bind_eq_some hr
      have hs₂ := hc.accept s₁.next byRef s₂ hnext.on hbyRef
      refine h.passed_value (hnext.trans hs₂) ?_ hr
      intro value s₃ hs₃ hclean
      have hbehind := hs₂.trans hs₃
      have hreads := h.reads_conditional hs htarget (hbehind.clean hclean) hk
      exact ⟨target, rfl, assigns_noded hs hpassed.on hreads hk hbehind⟩
    · rw [run_bind_of_eq (run_accept_of_ne hk)] at hr
      split at hr
      · next hf => cases hf
      · split at hr
        · next hupdate =>
          obtain ⟨_, s₂, hadvance, hr⟩ := run_bind_eq_some hr
          obtain rfl : s₂ = s₁.next := by cases hadvance; rfl
          have hmem : s₁.stream.current.value ∈ updateOperators := by
            simpa using (Bool.and_eq_true_iff.mp hupdate).2
          refine h.passed_value hnext ?_ hr
          intro value s₃ _ level hlevel
          rw [level?_of_mem_updateOperators hmem] at hlevel
          cases hlevel
        · cases hr
          exact ⟨hpassed, fun _ => hk⟩

end Groups

/-! ## Rules -/

theorem groups_zero (ts : List Token) : Groups ts (rules 0) where
  passes _ := (inherited_passes ts).outOfSteps
  closes := (closes_rules 0).toClosesExpressions
  primary := fun _ _ _ _ hr => nomatch hr
  unary := fun _ _ _ _ hr => nomatch hr
  operand := fun _ _ _ _ _ hr => nomatch hr
  expression := fun _ _ _ _ hr => nomatch hr

theorem Groups.passes_succ {n : Nat} (ih : Groups ts (rules n)) (goal : Goal) :
    Passes ts (rules (n + 1) goal) := by
  have hc := composed_passes ts
  have he := ih.passesExpressions
  have hblock : Passes ts (block (rules n) n) :=
    hc.block (ih.passes .statement) fun _ _ => passes_done rfl
  have hif : Passes ts (ifStatement (rules n)) :=
    hc.ifStatement (ih.passes .expression) (ih.passes .statement) (ih.passes .ifStatement)
      fun _ _ _ _ => passes_done rfl
  have hfunction (form : FunctionForm) (start : Nat) (found : Modifiers) (doc : Option String) :
      Passes ts (functionLike (rules n) n form start found doc) :=
    hc.functionLike he hblock fun _ => passes_done rfl
  have hs : OfStatements (fun _ m => Passes ts m) (rules n) n :=
    { toOfExpressions := he
      statement := ih.passes .statement
      block := hblock
      ifStatement := hif
      function := hc.looking looks_token fun _ => hc.bind hc.takeDoc fun _ => hfunction _ _ _ _
      classDeclaration := hc.classDeclaration he (hfunction _) fun _ _ _ => passes_done rfl }
  cases goal with
  | expression => exact .nested (hc.pure ()) fun s a s' hs hr => (ih.passes_assignment hs hr).1
  | operand level => exact fun s a s' hs hr => (ih.climbs_operand hs hr).1
  | unary => exact hc.unaryRule he
  | primary => exact hc.primaryRule he
  | statement => exact .nested hc.advance (hc.statementBody hs)
  | ifStatement => exact hif

theorem groups_rules (ts : List Token) (n : Nat) : Groups ts (rules n) := by
  induction n with
  | zero => exact groups_zero ts
  | succ n ih =>
    constructor
    case passes => exact ih.passes_succ
    case closes => exact (closes_rules (n + 1)).toClosesExpressions
    case primary => exact readsOperand_primary ih.passesExpressions
    case unary => exact readsUnary_unary ih.passesExpressions ih.primary ih.unary
    case operand => exact fun level s e s' hs hr => (ih.climbs_operand hs hr).2 e rfl
    case expression =>
      intro s r s' hs hr hclean
      rcases run_nested_eq_some hr with ⟨-, s₁, s₂, hreport, hback, rfl⟩ | ⟨s₁, -, hrule, rfl⟩
      · cases hback
        have hclean₁ : s₁.Clean := hclean
        exact absurd hclean₁ (not_clean_report hreport)
      · have hs₁ : State.On ts { s with depth := s.depth + 1 } := hs.of_eq rfl rfl
        exact (ih.passes_assignment hs₁ hrule).2 hclean

theorem on_atFirst (source : List Char) : (State.atFirst source).On (Token.ofSource source) where
  closed := (Token.scans_ofSource source).closed
  laid := (Token.scans_ofSource source).laid
  front := ⟨[], (tokens_atFirst source).symm, fun _ ht => absurd ht List.not_mem_nil⟩
  read := Nat.zero_le _

/-- The statements of a source pass over its tokens. -/
theorem passed_statements {source : List Char} {n m : Nat} {statements : List (Option NodeId)}
    (hr : (statementList (rules n) .endOfFile false m).run (.atFirst source) = some (statements, s)) :
    Passed (Token.ofSource source) (.atFirst source) s :=
  (composed_passes _).statementList ((groups_rules _ n).passes .statement) _ _ s (on_atFirst source) hr

end Grammar

namespace Parsed

open Grammar

variable {source : List Char} {i : NodeId} {left right : Option NodeId} {operator : String}
variable {level : Nat}

/-- A binary operator of a source has two operands, and it groups with those of them that are such
operators themselves as their levels say. The tokens of the expression are what is read along its tree. -/
theorem binary_grouped
    (hi : (ofSource source).arena.payload? i = some (.binary left operator right))
    (hl : level? operator = some level) :
    ∃ l r s, left = some l ∧ right = some r ∧ (ofSource source).arena.span? i = some s ∧
      (ofSource source).arena.Reads (Token.ofSource source) i (s.tokens (Token.ofSource source)) ∧
      (ofSource source).arena.Grouped (Token.ofSource source) i l r operator level := by
  obtain ⟨statements, s, hlist, -, he⟩ := run_statements source
  rw [he] at hi ⊢
  dsimp only at hi ⊢
  have hpayload := hi
  rw [Arena.payload?_added] at hi
  split at hi
  · cases hi
  · obtain ⟨l, r, rfl, rfl, hg⟩ := (passed_statements hlist).operations i _ (Nat.zero_le i) hi level hl
    have hkept : s.arena.PrefixOf (s.arena.added (.sourceFile statements) 0 s.stream.current.stop) :=
      Arena.prefixOf_added
    have hgrouped := hg.mono hkept
    obtain ⟨span, xs, t, ys, hspan, htokens, ht, hleft, hright⟩ := hgrouped.reads
    refine ⟨l, r, span, rfl, rfl, hspan, ?_, hgrouped⟩
    rw [htokens]
    exact .binary hpayload ht hleft hright

theorem binary_grouped_sum :
    let p := ofSource "<?php $a + $b * 2;".toList
    let ts := Token.ofSource "<?php $a + $b * 2;".toList
    ∃ s, p.arena.span? 4 = some s ∧ p.arena.Reads ts 4 (s.tokens ts) ∧
      p.arena.Grouped ts 4 0 3 "+" 15 := by
  intro p ts
  have hbinary : (p.arena.payload? 4).bind Payload.binary? = some (some 0, "+", some 3) := by
    decide +kernel
  have hlevel : level? "+" = some 15 := rfl
  obtain ⟨l, r, s, hl, hr, hs, hreads, hgrouped⟩ :=
    binary_grouped (Arena.payload?_of_binary? hbinary) hlevel
  cases hl
  cases hr
  exact ⟨s, hs, hreads, hgrouped⟩

/-- Behind `instanceof` there is a class, so a power cannot take that from it. The left operand of the
power binds less tightly then. -/
theorem exists_left_of_lower_level : ∃ source i l r p level q own,
    (ofSource source).diagnostics = [] ∧
      (ofSource source).arena.payload? i = some (.binary (some l) p r) ∧ level? p = some level ∧
      (ofSource source).arena.Operates l q own ∧
      ¬ (level < own ∨ level = own ∧ groupsToRight p = false) := by
  have hevaluated : (ofSource "<?php $a instanceof B ** 2;".toList).diagnostics = [] ∧
      ((ofSource "<?php $a instanceof B ** 2;".toList).arena.payload? 4).bind Payload.binary? =
        some (some 2, "**", some 3) ∧
      ((ofSource "<?php $a instanceof B ** 2;".toList).arena.payload? 2).bind Payload.binary? =
        some (some 0, "instanceof", some 1) := by
    decide +kernel
  obtain ⟨hd, hpower, hinstance⟩ := hevaluated
  refine ⟨_, 4, 2, some 3, "**", 19, "instanceof", 18, hd, Arena.payload?_of_binary? hpower, rfl,
    ⟨some 0, some 1, ?_, rfl⟩, by decide⟩
  exact Arena.payload?_of_binary? hinstance

end Parsed

end PhpAtlas
