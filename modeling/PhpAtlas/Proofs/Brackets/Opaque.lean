import PhpAtlas.Proofs.Brackets.Rules
import PhpAtlas.Proofs.Names
import PhpAtlas.Parsed

/-! # Opaque expressions

Closures, arrow functions, `match` and anonymous classes are read as one node
each, as variables are, where a separator or a closing bracket follows.
-/

namespace PhpAtlas

namespace TokenKind

/-- What an opaque expression ends before. -/
def endsOpaque (kind : TokenKind) : Bool := kind.isSeparator || kind.isCloser

end TokenKind

namespace Token

/-- The first tokens of a closure, an arrow function, a `match` or an anonymous class. -/
def beginsOpaque : List Token → Bool
  | t :: u :: _ =>
      t.kind == .keyword .functionKw ||
        t.kind == .keyword .staticKw && (u.kind == .keyword .functionKw || u.isWord "fn") ||
        t.isWord "fn" && (u.kind == .openParen || u.kind == .ampersand) ||
        t.isWord "match" && u.kind == .openParen ||
        t.kind == .keyword .newKw && u.kind == .keyword .classKw
  | _ => false

/-- A whole opaque expression: its brackets match, and separators stand only inside of them. -/
structure IsOpaque (run : List Token) : Prop where
  begins : beginsOpaque run = true
  wellBracketed : WellBracketed run
  ne_endOfFile : ∀ t ∈ run, t.kind ≠ .endOfFile
  undivided : ∀ front t back, run = front ++ t :: back → t.kind.isSeparator = true →
    awaited front [] ≠ some []

end Token

namespace Grammar

open TokenStream (current_of_tokens tokens_next peek_one)

variable {s s' : State} {t u v : Token} {run rest ts : List Token} {σ : List TokenKind}
variable {n depth : Nat} {i : NodeId}

theorem opaqueRun_of_awaited (hr : Token.awaited run σ = some [])
    (he : ∀ t ∈ run, t.kind ≠ .endOfFile)
    (hd : ∀ front t back, run = front ++ t :: back → t.kind.isSeparator = true →
      Token.awaited front σ ≠ some [])
    (hu : u.kind.endsOpaque = true) : OpaqueRun σ.length run (u :: rest) := by
  induction run generalizing σ with
  | nil =>
    cases hr
    exact .stop hu
  | cons t run ih =>
    obtain ⟨τ, ht, hr⟩ := Option.bind_eq_some_iff.mp hr
    obtain ⟨hte, he⟩ := List.forall_mem_cons.mp he
    have hrun : OpaqueRun τ.length run (u :: rest) := by
      refine ih hr he fun front t' back hrun hsep => ?_
      have := hd (t :: front) t' back (by rw [hrun, List.cons_append]) hsep
      rwa [Token.awaited, ht] at this
    cases TokenKind.await_eq_some_iff.mp ht with
    | opening hc => exact .opening (by rw [hc]; rfl) hrun
    | closing hk => exact .closing hk hrun
    | other hk =>
      refine .inner hk hte (fun h0 => ?_) hrun
      obtain rfl := List.eq_nil_of_length_eq_zero h0
      by_contra hsep
      exact hd [] t run rfl (by simpa using hsep) rfl

/-! ## Passing over runs -/

/-- The state after some tokens. -/
def State.passed (s : State) : Nat → State
  | 0 => s
  | k + 1 => s.next.passed k

/-- Only the place in the tokens changes. -/
theorem State.passed_eq (s : State) (k : Nat) :
    s.passed k = { s with stream := (s.passed k).stream, readTo := (s.passed k).readTo } := by
  induction k generalizing s with
  | zero => rfl
  | succ k ih => exact ih s.next

theorem State.passed_add (s : State) (j k : Nat) : s.passed (j + k) = (s.passed j).passed k := by
  induction j generalizing s with
  | zero => rw [Nat.zero_add]; rfl
  | succ j ih =>
    rw [Nat.succ_add]
    exact ih s.next

theorem State.depth_passed (s : State) (k : Nat) : (s.passed k).depth = s.depth := by
  rw [s.passed_eq k]

theorem State.passed_withDepth (s : State) (d k : Nat) :
    ({ s with depth := d } : State).passed k = { s.passed k with depth := d } := by
  induction k generalizing s with
  | zero => rfl
  | succ k ih => exact ih s.next

theorem tokens_next_append (h : s.stream.tokens = t :: run ++ u :: rest) :
    s.next.stream.tokens = run ++ u :: rest := by
  cases run with
  | nil => exact tokens_next h
  | cons v run => exact tokens_next h

theorem tokens_passed (h : s.stream.tokens = run ++ u :: rest) :
    (s.passed run.length).stream.tokens = u :: rest := by
  induction run generalizing s with
  | nil => exact h
  | cons t run ih => exact ih (tokens_next_append h)

/-- An opaque run is passed over as a whole. -/
theorem OpaqueRun.run_skipRun (h : OpaqueRun depth run (u :: rest))
    (hs : s.stream.tokens = run ++ u :: rest) (hn : run.length < n) :
    (skipRun n depth).run s = some ((), s.passed run.length) := by
  induction n generalizing s run depth with
  | zero => exact absurd hn (Nat.not_lt_zero _)
  | succ n ih =>
    have go {t : Token} {run : List Token} {depth depth' : Nat}
        (hstep : OpaqueStep depth t.kind (.on depth')) (h : OpaqueRun depth' run (u :: rest))
        (hs : s.stream.tokens = t :: run ++ u :: rest) (hn : (t :: run).length < n + 1) :
        (skipRun (n + 1) depth).run s = some ((), s.passed (t :: run).length) := by
      obtain rfl := current_of_tokens hs
      rw [hstep.run]
      exact ih h (tokens_next_append hs) (Nat.lt_of_succ_lt_succ hn)
    cases h with
    | stop ht =>
      obtain rfl := current_of_tokens hs
      exact (OpaqueStep.stop rfl ht).run n
    | opening ht h => exact go (.opening ht) h hs hn
    | closing ht h => exact go (.closing (Nat.succ_pos _) ht) h hs hn
    | inner ht he hsep h => exact go (.inner ht he hsep) h hs hn

/-! ## Expressions -/

/-- The tokens that a primary expression may start with and an operand as a whole may not. -/
def startsOperator (t : Token) : Bool :=
  t.kind == .operator || t.kind == .openParen || t.isWord "clone" || t.isWord "print"

theorem run_suffixes_of_ends {self : Rules} {bound start : Nat}
    (hs : s.stream.current.kind.endsOpaque = true) :
    (suffixes self bound start (n + 1) i).run s = some (some i, s) := by
  rw [suffixes, suffix, bind_assoc, looks_token.run_bind]
  cases hk : s.stream.current.kind <;> rw [hk] at hs <;> first | rfl | cases hs

theorem binaryOperator?_of_ends (ht : t.kind.endsOpaque = true) : binaryOperator? t = none := by
  rw [binaryOperator?]
  cases hk : t.kind <;> rw [hk] at ht <;> first | rfl | cases ht

theorem run_operators_of_ends {self : Rules} {level start : Nat}
    (hs : s.stream.current.kind.endsOpaque = true) :
    (operators self level start (n + 1) i).run s = some (some i, s) := by
  rw [operators, looks_token.run_bind, binaryOperator?_of_ends hs]
  rfl

theorem run_accept_of_ends {kind : TokenKind} (hs : s.stream.current.kind.endsOpaque = true)
    (hk : kind.endsOpaque = false) : (accept kind).run s = some (false, s) := by
  refine run_accept_of_ne fun he => ?_
  rw [he, hk] at hs
  cases hs

variable {self : Rules}

theorem run_unary_of_primary (ht : startsOperator s.stream.current = false)
    (hp : (self .primary).run s = some (some i, s'))
    (hs' : s'.stream.current.kind.endsOpaque = true) :
    (unary self (n + 1)).run s = some (some i, s') := by
  simp only [startsOperator, Bool.or_eq_false_iff] at ht
  obtain ⟨⟨⟨ho, hb⟩, hc⟩, hpr⟩ := ht
  rw [unary, looks_token.run_bind]
  simp only [ho, hc, hpr, Bool.false_and, Bool.or_self, Bool.false_eq_true, if_false]
  rw [looks_isAtCast.run_bind]
  simp only [hb, Bool.false_and, Bool.false_eq_true, if_false]
  rw [run_bind_of_eq hp]
  exact run_suffixes_of_ends hs'

theorem run_operand_of_unary {level : Nat} (hu : (self .unary).run s = some (some i, s'))
    (hs' : s'.stream.current.kind.endsOpaque = true) :
    (operand self (n + 1) level).run s = some (some i, s') := by
  rw [operand, looks_token.run_bind, run_bind_of_eq hu]
  exact run_operators_of_ends hs'

theorem run_conditional_of_operand (ho : (self (.operand 0)).run s = some (some i, s'))
    (hs' : s'.stream.current.kind.endsOpaque = true) :
    (conditional self).run s = some (some i, s') := by
  rw [conditional, looks_token.run_bind, run_bind_of_eq ho]
  dsimp only
  rw [run_bind_of_eq (run_accept_of_ends hs' rfl)]
  rfl

theorem run_assignment_of_operand (ho : (self (.operand 0)).run s = some (some i, s'))
    (hs' : s'.stream.current.kind.endsOpaque = true) :
    (assignment self).run s = some (some i, s') := by
  rw [assignment, looks_token.run_bind, run_bind_of_eq (run_conditional_of_operand ho hs')]
  dsimp only
  rw [looks_token.run_bind, run_bind_of_eq (run_accept_of_ends hs' rfl), if_neg (by decide), if_neg]
  · rfl
  · intro he
    rw [eq_of_beq (Bool.and_eq_true_iff.mp he).1] at hs'
    cases hs'

/-- The rule reads a run of tokens as one node, and reports nothing. -/
def ReadsNode (m : Parse (Option NodeId)) (s : State) (payload : Payload (Option NodeId))
    (rest : List Token) : Prop :=
  ∃ stream readTo, stream.tokens = rest ∧ m.run s = some (some s.arena.size,
    { s with
      stream
      readTo
      arena := (s.arena.add payload s.stream.current.start (max readTo s.stream.current.start)).2 })

theorem run_skippedExpression (h : OpaqueRun 0 run (u :: rest))
    (hs : s.stream.tokens = run ++ u :: rest) (hn : run.length < n) (start : Nat) :
    (skippedExpression n start).run s = (done .skipped start).run (s.passed run.length) := by
  rw [skippedExpression, run_bind_of_eq (h.run_skipRun hs hn)]

theorem not_isWord_of_isWord {word : String} (h : t.isWord word = true) (other : String)
    (hne : sameName word other = false) : t.isWord other = false := by
  obtain ⟨-, hw⟩ := Bool.and_eq_true_iff.mp h
  rw [Token.isWord, sameName_congr (sameName_iff.mp hw), hne, Bool.and_false]

/-- The words `fn` and `match` open opaque expressions with what follows them. -/
theorem run_primary_of_word {word : String} (h : s.stream.current.isWord word = true)
    (hw : ∀ other ∈ ["array", "clone", "print"], sameName word other = false)
    (hm : isAtArrowOrMatch.run s = some (true, s)) :
    startsOperator s.stream.current = false ∧ (primary self n).run s =
      (skippedExpression n s.stream.current.start).run s := by
  have hk : s.stream.current.kind = .identifier := eq_of_beq (Bool.and_eq_true_iff.mp h).1
  have hne other ho := not_isWord_of_isWord h other (hw other ho)
  refine ⟨by simp [startsOperator, hk, hne], ?_⟩
  rw [primary, looks_token.run_bind]
  simp only [hk]
  rw [(looks_kindAhead 1).run_bind, if_neg (by simp [hne]), run_bind_of_eq hm, if_pos rfl]

/-- The class after `new` is passed over from its keyword on. -/
theorem run_primary_of_class (ht : t.kind = .keyword .newKw) (hu : u.kind = .keyword .classKw)
    (hs : s.stream.tokens = t :: u :: ts) :
    startsOperator s.stream.current = false ∧ (primary self n).run s =
      (skippedExpression n s.stream.current.start).run s.next := by
  obtain rfl := current_of_tokens hs
  have hc : s.next.stream.current = u := current_of_tokens (tokens_next hs)
  refine ⟨by simp [startsOperator, Token.isWord, ht], ?_⟩
  rw [primary, looks_token.run_bind]
  simp only [ht]
  rw [newExpression, looks_token.run_bind, run_bind_of_eq run_advance_next, (looks_isAt _).run_bind,
    hc, hu, if_pos (beq_self_eq_true _)]

theorem OpaqueRun.tail (h : OpaqueRun depth (t :: run) rest) (ht : t.kind.isBracket = false) :
    OpaqueRun depth run rest := by
  cases h with
  | opening hc => simp [TokenKind.isBracket, hc] at ht
  | closing hc => simp [TokenKind.isBracket, hc] at ht
  | inner _ _ _ h => exact h

/-- Where an opaque expression stands, all of it is passed over. -/
theorem run_primary_of_isOpaque (ho : Token.IsOpaque run) (hu : u.kind.endsOpaque = true)
    (hs : s.stream.tokens = run ++ u :: rest) (hn : run.length < n) :
    startsOperator s.stream.current = false ∧ (primary self n).run s =
      (done .skipped s.stream.current.start).run (s.passed run.length) := by
  have hrun : OpaqueRun 0 run (u :: rest) :=
    opaqueRun_of_awaited ho.wellBracketed ho.ne_endOfFile ho.undivided hu
  have hskip := run_skippedExpression hrun hs hn s.stream.current.start
  have hbegins := ho.begins
  match run, hbegins with
  | a :: b :: ts, hbegins =>
  obtain rfl := current_of_tokens hs
  have hb : s.stream.peek 1 = b := peek_one hs
  simp only [Token.beginsOpaque, Bool.or_eq_true, Bool.and_eq_true, beq_iff_eq] at hbegins
  obtain (((ha | ⟨ha, hb'⟩) | ⟨ha, hb'⟩) | ⟨ha, hb'⟩) | ⟨ha, hb'⟩ := hbegins
  · rw [primary, looks_token.run_bind]
    simp [startsOperator, Token.isWord, ha, hskip]
  · refine ⟨by simp [startsOperator, Token.isWord, ha], ?_⟩
    rw [primary, looks_token.run_bind]
    simp only [ha]
    rw [looks_isAtStaticClosure.run_bind, if_pos, hskip]
    simpa [ha, hb] using hb'
  · rw [← hskip]
    refine run_primary_of_word ha (by decide +kernel) ?_
    rw [looks_isAtArrowOrMatch_eq]
    dsimp only
    rw [if_pos ha, hb]
    simpa using hb'
  · rw [← hskip]
    refine run_primary_of_word ha (by decide +kernel) ?_
    rw [looks_isAtArrowOrMatch_eq]
    dsimp only
    rw [if_neg, hb, ha, hb']
    · rfl
    · simp [not_isWord_of_isWord ha "fn" (by decide +kernel)]
  · obtain ⟨hstart, hp⟩ := run_primary_of_class ha hb' hs
    refine ⟨hstart, hp.trans ?_⟩
    exact run_skippedExpression (hrun.tail (by rw [ha]; rfl)) (tokens_next_append hs)
      (Nat.lt_of_succ_lt hn) _

/-! ## Expressions that are read as one node -/

theorem run_expression_of_primary (ht : startsOperator s.stream.current = false)
    (hd : s.depth < maxDepth)
    (hp : (primary (rules n) n).run { s with depth := s.depth + 1 } = some (some i, s'))
    (hs' : s'.stream.current.kind.endsOpaque = true) :
    (rules (n + 4) .expression).run s = some (some i, { s' with depth := s'.depth - 1 }) := by
  have hu : (unary (rules (n + 1)) (n + 1)).run { s with depth := s.depth + 1 } =
      some (some i, s') := run_unary_of_primary ht hp hs'
  have ho : (operand (rules (n + 2)) (n + 2) 0).run { s with depth := s.depth + 1 } =
      some (some i, s') := run_operand_of_unary hu hs'
  exact run_nested hd (run_assignment_of_operand ho hs')

theorem readsNode_expression {payload : Payload (Option NodeId)} (hd : s.depth < maxDepth)
    (ht : startsOperator s.stream.current = false) (hu : u.kind.endsOpaque = true)
    (hp : ReadsNode (primary (rules n) n) { s with depth := s.depth + 1 } payload (u :: rest)) :
    ReadsNode (rules (n + 4) .expression) s payload (u :: rest) := by
  obtain ⟨stream, readTo, hrest, hrun⟩ := hp
  refine ⟨stream, readTo, hrest, run_expression_of_primary ht hd hrun ?_⟩
  rwa [current_of_tokens hrest]

theorem readsNode_variable (hv : v.kind = .variable) (hu : u.kind.endsOpaque = true)
    (hd : s.depth < maxDepth) (hs : s.stream.tokens = v :: u :: rest) :
    ReadsNode (rules (n + 4) .expression) s (.variable (some v.value) none) (u :: rest) := by
  obtain rfl := current_of_tokens hs
  refine readsNode_expression hd (by simp [startsOperator, Token.isWord, hv]) hu ?_
  refine ⟨s.next.stream, s.next.readTo, tokens_next hs, ?_⟩
  rw [primary, looks_token.run_bind]
  simp only [hv]
  rfl

theorem readsNode_of_isOpaque (ho : Token.IsOpaque run) (hu : u.kind.endsOpaque = true)
    (hd : s.depth < maxDepth) (hs : s.stream.tokens = run ++ u :: rest) (hn : run.length < n) :
    ReadsNode (rules (n + 4) .expression) s .skipped (u :: rest) := by
  let inner : State := { s with depth := s.depth + 1 }
  have hs₁ : inner.stream.tokens = run ++ u :: rest := hs
  obtain ⟨ht, hp⟩ := @run_primary_of_isOpaque inner _ _ _ _ (rules n) ho hu hs₁ hn
  refine readsNode_expression hd ht hu
    ⟨(inner.passed run.length).stream, (inner.passed run.length).readTo, tokens_passed hs₁, ?_⟩
  rw [hp, inner.passed_eq]
  rfl

/-! ## Skipped statements -/

/-- The number of brackets that a skipped statement counts as open after some tokens. -/
def openAfter : Nat → List Token → Nat
  | depth, [] => depth
  | depth, t :: ts =>
      openAfter (if t.kind.closer?.isSome then depth + 1 else if t.kind.isCloser then depth - 1
        else depth) ts

/-- A run that does not end a skipped statement with some brackets open: where there are none, neither
a semicolon nor a closing tag nor a block stands outside of its brackets. -/
structure GoesOn (depth : Nat) (σ : List TokenKind) (run : List Token) : Prop where
  matched : Token.awaited run σ = some []
  ne_endOfFile : ∀ t ∈ run, t.kind ≠ .endOfFile
  undivided : depth = 0 → ∀ front t back, run = front ++ t :: back →
    (t.kind = .semicolon ∨ t.kind = .closeTag → Token.awaited front σ ≠ some []) ∧
      (t.kind = .closeBrace → Token.awaited front σ ≠ some [.closeBrace])

theorem GoesOn.tail {τ : List TokenKind} (h : GoesOn depth σ (t :: run))
    (ht : t.kind.await σ = some τ) : GoesOn depth τ run where
  matched := by
    have := h.matched
    rwa [Token.awaited, ht] at this
  ne_endOfFile := (List.forall_mem_cons.mp h.ne_endOfFile).2
  undivided hd front t' back hrun := by
    have := h.undivided hd (t :: front) t' back (by rw [hrun, List.cons_append])
    rwa [Token.awaited, ht] at this

/-- A run that goes on may be put into a skipped statement. -/
theorem SkippedRun.insert {isCut : Bool} {back : List Token} (hr : GoesOn depth σ run)
    (h : SkippedRun isCut depth back rest) :
    SkippedRun isCut (depth + σ.length) (run ++ back) rest := by
  induction run generalizing σ with
  | nil =>
    cases hr.matched
    exact h
  | cons t run ih =>
    obtain ⟨τ, ht, -⟩ := Option.bind_eq_some_iff.mp hr.matched
    have htail := ih (hr.tail ht)
    have he := hr.ne_endOfFile t List.mem_cons_self
    cases TokenKind.await_eq_some_iff.mp ht with
    | opening hc => exact .opening (by rw [hc]; rfl) htail
    | closing hk =>
      by_cases hb : t.kind = .closeBrace
      · refine .brace hb (Nat.succ_pos _) (fun h1 => ?_) htail
        obtain ⟨hd, hσ⟩ : depth = 0 ∧ τ.length = 0 := by
          rw [List.length_cons] at h1
          omega
        obtain rfl := List.eq_nil_of_length_eq_zero hσ
        exact absurd (congrArg (some [·]) hb) ((hr.undivided hd [] t run rfl).2 hb)
      · exact .closing (closer_cases hk hb) htail
    | other hk =>
      refine .inner hk he (fun h0 => ?_) htail
      obtain ⟨hd, hσ⟩ := Nat.add_eq_zero_iff.mp h0
      obtain rfl := List.eq_nil_of_length_eq_zero hσ
      have hu := (hr.undivided hd [] t run rfl).1
      exact ⟨fun hk => hu (.inl hk) rfl, fun hk => hu (.inr hk) rfl⟩

/-- So it may take the place of a variable. -/
theorem SkippedRun.replace {isCut : Bool} {front back : List Token} (hv : v.kind = .variable)
    (hr : GoesOn (openAfter depth front) [] run)
    (h : SkippedRun isCut depth (front ++ v :: back) rest) :
    SkippedRun isCut depth (front ++ run ++ back) rest := by
  induction front generalizing depth with
  | nil =>
    cases h with
    | inner _ _ _ h => exact h.insert hr
    | semicolon _ ht | block _ ht => simp [hv] at ht
    | opening ht | closing ht | brace ht => simp [hv, TokenKind.closer?] at ht
  | cons t front ih =>
    generalize hall : t :: front ++ v :: back = all at h
    cases h with
    | stop | cut => cases hall
    | semicolon | block => simp at hall
    | @opening _ t _ _ ht h =>
      cases hall
      refine .opening ht (ih ?_ h)
      simpa [openAfter, ht] using hr
    | @closing _ t _ _ ht h =>
      cases hall
      refine .closing ht (ih ?_ h)
      rcases ht with ht | ht <;> simpa [openAfter, ht, TokenKind.closer?, TokenKind.isCloser] using hr
    | @brace _ t _ _ ht hd hu h =>
      cases hall
      refine .brace ht hd (fun h1 => ?_) (ih ?_ h)
      · cases front with
        | nil => simp [continues, hv, Token.isWord, continuationWords] at hu; omega
        | cons t front => exact hu h1
      · simpa [openAfter, ht, TokenKind.closer?, TokenKind.isCloser] using hr
    | @inner _ t _ _ ht he hs h =>
      cases hall
      obtain ⟨ho, hc⟩ := Bool.or_eq_false_iff.mp ht
      refine .inner ht he hs (ih ?_ h)
      simpa [openAfter, ho, hc] using hr

/-- A run that a skipped statement has is passed over as a whole. -/
theorem SkippedRun.run_skipStatement {isCut : Bool} (h : SkippedRun isCut depth run (u :: rest))
    (hs : s.stream.tokens = run ++ u :: rest) (hn : run.length < n) :
    (skipStatement n depth).run s = some ((), s.passed run.length) := by
  induction n generalizing s run depth with
  | zero => exact absurd hn (Nat.not_lt_zero _)
  | succ n ih =>
    have go {t : Token} {run : List Token} {depth depth' : Nat}
        (hstep : SkippedStep depth t.kind s.next.stream.current (.on depth'))
        (h : SkippedRun isCut depth' run (u :: rest))
        (hs : s.stream.tokens = t :: run ++ u :: rest) (hn : (t :: run).length < n + 1) :
        (skipStatement (n + 1) depth).run s = some ((), s.passed (t :: run).length) := by
      obtain rfl := current_of_tokens hs
      rw [hstep.run]
      exact ih h (tokens_next_append hs) (Nat.lt_of_succ_lt_succ hn)
    cases h with
    | stop _ ht =>
      obtain rfl := current_of_tokens hs
      exact (SkippedStep.stop rfl ht).run n
    | semicolon _ ht =>
      obtain rfl := current_of_tokens hs
      exact (SkippedStep.semicolon rfl ht).run n
    | block _ ht hu =>
      obtain rfl := current_of_tokens hs
      obtain rfl := current_of_tokens (tokens_next_append hs)
      exact (SkippedStep.block rfl ht hu).run n
    | cut _ ht =>
      obtain rfl := current_of_tokens hs
      exact (SkippedStep.cut ht).run n
    | opening ht h => exact go (.opening ht) h hs hn
    | closing ht h => exact go (.closing ht) h hs hn
    | brace ht hd hu h =>
      rw [← tokens_next_append hs] at hu
      exact go (.brace ht hd hu) h hs hn
    | inner ht he hsep h => exact go (.inner ht he hsep) h hs hn

/-- An opaque expression goes on in brackets, and elsewhere if no block stands outside of its
brackets, as in an arrow function. -/
theorem goesOn_of_isOpaque (ho : Token.IsOpaque run)
    (hb : depth = 0 → ∀ front t back, run = front ++ t :: back → t.kind = .closeBrace →
      Token.awaited front [] ≠ some [.closeBrace]) : GoesOn depth [] run where
  matched := ho.wellBracketed
  ne_endOfFile := ho.ne_endOfFile
  undivided hd front t back hrun := by
    refine ⟨fun ht => ho.undivided front t back hrun ?_, hb hd front t back hrun⟩
    rcases ht with ht | ht <;> rw [ht] <;> rfl

/-- An opaque expression may stand for a variable. Wherever the grammar reads an expression, either is
read as one node without a report if a separator or a closing bracket follows. A skipped statement with
the variable still ends where it ended, if it is in brackets there or the expression has no block outside
of its own. -/
theorem opaque_for_variable (hv : v.kind = .variable) (ho : Token.IsOpaque run) :
    (∀ n u rest s t, u.kind.endsOpaque = true → run.length < n →
      s.depth < maxDepth → s.stream.tokens = v :: u :: rest →
      t.depth < maxDepth → t.stream.tokens = run ++ u :: rest →
      ReadsNode (rules (n + 4) .expression) s (.variable (some v.value) none) (u :: rest) ∧
        ReadsNode (rules (n + 4) .expression) t .skipped (u :: rest)) ∧
    ∀ n n' u front back rest s t, Token.Closed s.stream.tokens →
      s.stream.tokens = front ++ v :: back ++ u :: rest →
      (skipStatement n 0).run s = some ((), s.passed (front ++ v :: back).length) →
      (openAfter 0 front = 0 → ∀ before t after, run = before ++ t :: after →
        t.kind = .closeBrace → Token.awaited before [] ≠ some [.closeBrace]) →
      (front ++ run ++ back).length < n' → t.stream.tokens = front ++ run ++ back ++ u :: rest →
      (skipStatement n' 0).run t = some ((), t.passed (front ++ run ++ back).length) := by
  constructor
  · intro n u rest s t hu hn hds hs hdt ht
    exact ⟨readsNode_variable hv hu hds hs, readsNode_of_isOpaque ho hu hdt ht hn⟩
  · intro n n' u front back rest s t hclosed hs hrun hb hn ht
    obtain ⟨isCut, passed, hp, hskip⟩ := run_skipStatement hclosed hrun
    rw [tokens_passed hs] at hp hskip
    obtain rfl := List.append_cancel_right (hs.symm.trans hp)
    exact (hskip.replace hv (goesOn_of_isOpaque ho hb)).run_skipStatement ht hn

theorem opaque_for_variable_arrowFunction :
    let run := (Token.ofTagged "fn() => 1".toList).dropLast
    let u : Token := ⟨.semicolon, 9, 10, ";", "", none⟩
    let e : Token := .endAt 10
    let s : State := { stream := ⟨⟨.variable, 7, 9, "$v", "v", none⟩, [u, e], none⟩ }
    let t : State := { stream := (TokenStream.ofTokens (run ++ [u, e])).next }
    (s.stream.current.kind = .variable ∧ Token.IsOpaque run) ∧
      ReadsNode (rules 24 .expression) s (.variable (some "v") none) [u, e] ∧
        ReadsNode (rules 24 .expression) t .skipped [u, e] := by
  intro run u e s t
  have hd : ∀ t ∈ run, t.kind.isSeparator = false := by decide +kernel
  have ho : Token.IsOpaque run := by
    refine ⟨by decide +kernel, by decide +kernel, by decide +kernel, fun front t back hr ht => ?_⟩
    rw [hd t (by rw [hr]; exact List.mem_append_right _ List.mem_cons_self)] at ht
    cases ht
  refine ⟨⟨rfl, ho⟩, ?_⟩
  exact (opaque_for_variable (v := s.stream.current) rfl ho).1 20 u [e] s t (by decide)
    (by decide +kernel) (by decide) rfl (by decide) (by decide +kernel)

/-- Before a colon an opaque expression does not end, and a skipped statement ends with the block of
one that stands in no bracket of the statement. -/
theorem opaque_not_for_variable :
    (∀ source ∈ ["<?php $a = $c ? $v : $w;", "<?php echo $v, 2;"],
      (Parsed.ofSource source.toList).diagnostics = []) ∧
    ∀ source ∈ ["<?php $a = $c ? fn() => 1 : $w;", "<?php echo function () \x7b return 1; \x7d, 2;"],
      (Parsed.ofSource source.toList).diagnostics ≠ [] ∧
        Token.WellBracketed (Token.ofSource source.toList) := by
  decide +kernel

end Grammar
end PhpAtlas
