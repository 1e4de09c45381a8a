import PhpAtlas.Proofs.Operators.Operands

/-! # Climbing by levels

The loop of binary operators keeps an expression that reads as what has been read and that
can be the left operand of any operator that may come. What an operand on the right has
left over decides that: the operator at which it has stopped binds less tightly.
-/

namespace PhpAtlas

/-- The node is not that of a binary operator. -/
def Arena.NotBinary (a : Arena) (i : NodeId) : Prop :=
  ∀ left operator right, a.payload? i ≠ some (.binary left operator right)

theorem Arena.IsOperand.notBinary {a : Arena} {i : NodeId} (h : a.IsOperand i) : a.NotBinary i :=
  fun _ _ _ hb => h.ne hb rfl rfl

namespace Grammar

variable {ts front : List Token} {s s' s₀ s₁ : State} {e : NodeId} {r : Option NodeId}
variable {self : Rules} {n level own start : Nat} {operator : String} {t : Token}

/-! ## Unary operators -/

/-- The node reads as the tokens between the states, and it is not that of a binary operator. -/
structure UnaryAt (ts : List Token) (s s' : State) (e : NodeId) : Prop where
  notBinary : s'.arena.NotBinary e
  reads : ReadsBetween ts s s' e

theorem OperandAt.unaryAt (h : OperandAt ts s s' e) : UnaryAt ts s s' e := ⟨h.operand.notBinary, h.reads⟩

/-- The result of the rule is such a node. -/
def ReadsUnary (ts : List Token) (m : Parse (Option NodeId)) : Prop :=
  ∀ s e s', s.On ts → m.run s = some (some e, s') → UnaryAt ts s s' e

theorem unaryAt_unaryOf (h : ReadsUnary ts (self .unary)) (hf : Leading operator front)
    (hs : s.On ts) (ht : s₀.stream.tokens = front ++ s.stream.tokens)
    (hr : (unaryOf self start operator).run s = some (some e, s')) : UnaryAt ts s₀ s' e := by
  obtain ⟨operand, s₁, hoperand, hr⟩ := run_bind_eq_some hr
  cases operand with
  | none => cases hr
  | some operand =>
    obtain ⟨xs, hx, hreads⟩ := (h s operand s₁ hs hoperand).reads
    obtain ⟨rfl, rfl⟩ : e = s₁.arena.size ∧
        s' = s₁.noded (.unary operator (some operand) true) start := by
      cases hr
      exact ⟨rfl, rfl⟩
    have hp : (s₁.noded (.unary operator (some operand) true) start).arena.payload? s₁.arena.size =
        some (.unary operator (some operand) true) := by
      rw [State.payload?_noded, if_pos rfl]
    constructor
    · intro left q right hq
      cases hp.symm.trans hq
    · refine ⟨front ++ xs, ?_, .unary hp hf (hreads.mono Arena.prefixOf_added)⟩
      rw [ht, hx, List.append_assoc]
      rfl

theorem readsUnary_unary (h : PassesExpressions ts self) (hp : ReadsOperand ts (self .primary))
    (hu : ReadsUnary ts (self .unary)) : ReadsUnary ts (unary self n) := by
  intro s e s' hs hr
  rw [unary, looks_token.run_bind] at hr
  split at hr
  · next hleading =>
    obtain ⟨hk, hv⟩ := Bool.and_eq_true_iff.mp hleading
    have hkind : s.stream.current.kind = .operator := eq_of_beq hk
    have hne : s.stream.current.kind ≠ .endOfFile := by
      rw [hkind]
      nofun
    exact unaryAt_unaryOf hu (.operator hkind hv) hs.next (hs.tokens_eq hne) hr
  · split at hr
    · next hword =>
      have hw := Bool.or_eq_true_iff.mp hword
      have hne : s.stream.current.kind ≠ .endOfFile := hw.elim ne_endOfFile_of_isWord ne_endOfFile_of_isWord
      exact unaryAt_unaryOf hu (.word hw) hs.next (hs.tokens_eq hne) hr
    · rw [looks_isAtCast.run_bind] at hr
      split at hr
      · next hcast =>
        simp only [Bool.and_eq_true, beq_iff_eq] at hcast
        obtain ⟨⟨⟨hopen, htype⟩, hc⟩, hclose⟩ := hcast
        have hopen' : s.stream.current.kind ≠ .endOfFile := by
          rw [hopen]
          nofun
        have htype' : s.next.stream.current.kind ≠ .endOfFile := by
          rw [show s.next.stream.current.kind = .identifier from htype]
          nofun
        have hclose' : s.next.next.stream.current.kind ≠ .endOfFile := by
          rw [show s.next.next.stream.current.kind = .closeParen from hclose]
          nofun
        have htokens : s.stream.tokens =
            [s.stream.current, s.next.stream.current, s.next.next.stream.current] ++
              s.next.next.next.stream.tokens := by
          have h₁ := hs.tokens_eq hopen'
          have h₂ := hs.next.tokens_eq htype'
          have h₃ := hs.next.next.tokens_eq hclose'
          exact h₁.trans (congrArg _ (h₂.trans (congrArg _ h₃)))
        exact unaryAt_unaryOf hu (.cast hopen hclose hc) hs.next.next.next htokens hr
      · obtain ⟨operand, s₁, hoperand, hr⟩ := run_bind_eq_some hr
        cases operand with
        | none => cases hr
        | some operand =>
          have hpassed := h.primary s _ s₁ hs hoperand
          exact (operandAt_suffixes h hs hpassed (hp s operand s₁ hs hoperand) hr).unaryAt

/-! ## Binary operators -/

theorem level?_of_binaryOperator? (h : binaryOperator? t = some (operator, own)) :
    level? operator = some own := by
  have hlevel (text : String) (h : ((level? text).bind fun level => some (text, level)) =
      some (operator, own)) : level? operator = some own := by
    obtain ⟨level, hl, he⟩ := Option.bind_eq_some_iff.mp h
    cases he
    exact hl
  unfold binaryOperator? at h
  split at h
  · exact hlevel _ h
  · exact hlevel "|" h
  · exact hlevel "&" h
  · exact hlevel _ h
  · cases h

theorem ne_endOfFile_of_binaryOperator? (h : binaryOperator? t = some (operator, own)) :
    t.kind ≠ .endOfFile := by
  intro hk
  rw [binaryOperator?, hk] at h
  cases h

/-- The least level of an operator in the right operand. -/
def rightLevel (operator : String) (own : Nat) : Nat :=
  if groupsToRight operator then own else own + 1

/-- The expression reads as what has been read, and an operator that comes next can group with it if
that has the level: no operator takes more than its right operand from it. -/
structure Climbed (ts : List Token) (level : Nat) (s₀ s : State) (e : NodeId) : Prop where
  reads : ReadsBetween ts s₀ s e
  binary : ∀ left q right, s.arena.payload? e = some (.binary left q right) →
    ∃ own, level? q = some own ∧ level ≤ own ∧ (q = "instanceof" ∨
      ∀ p l, binaryOperator? s.stream.current = some (p, l) → l < rightLevel q own)

/-- No operator of the level comes next. -/
structure ClimbedAll (ts : List Token) (level : Nat) (s₀ s : State) (e : NodeId) : Prop
    extends Climbed ts level s₀ s e where
  stops : ∀ p l, binaryOperator? s.stream.current = some (p, l) → l < level

theorem UnaryAt.climbed (h : UnaryAt ts s₀ s e) : Climbed ts level s₀ s e :=
  ⟨h.reads, fun left q right hq => absurd hq (h.notBinary left q right)⟩

/-- What rules do with the operators that they read. -/
structure Groups (ts : List Token) (rules : Rules) : Prop where
  passes (goal : Goal) : Passes ts (rules goal)
  closes : ClosesExpressions rules
  primary : ReadsOperand ts (rules .primary)
  unary : ReadsUnary ts (rules .unary)
  operand : ∀ level s e s', s.On ts → (rules (.operand level)).run s = some (some e, s') →
    ClimbedAll ts level s s' e
  /-- An assignment is read to its end. -/
  expression : ∀ s r s', s.On ts → (rules .expression).run s = some (r, s') → s'.Clean →
    s'.stream.current.kind ≠ .equals

/-- What is read to the right of an operator. -/
structure RightAt (ts : List Token) (operator : String) (own : Nat) (s s' : State) (e : NodeId) :
    Prop where
  reads : ReadsBetween ts s s' e
  classRef : operator = "instanceof" → s'.arena.NotBinary e
  climbed : operator ≠ "instanceof" → ClimbedAll ts (rightLevel operator own) s s' e

namespace Groups

variable (h : Groups ts self)

include h

theorem passesExpressions : PassesExpressions ts self where
  expression := h.passes .expression
  operand level := h.passes (.operand level)
  unary := h.passes .unary
  primary := h.passes .primary
  parentheses _ :=
    (composed_passes ts).parentheses (h.passes .expression) fun _ => passes_done rfl

theorem passes_rightOperand : Passes ts (rightOperand self operator own) := by
  unfold rightOperand
  split
  · exact (composed_passes ts).classReference h.passesExpressions
  · exact h.passes _

theorem rightAt (hs : s.On ts) (hr : (rightOperand self operator own).run s = some (some e, s')) :
    RightAt ts operator own s s' e := by
  unfold rightOperand at hr
  split at hr
  · next hi =>
    have ho := readsOperand_classReference h.primary s e s' hs hr
    exact ⟨ho.reads, fun _ => ho.operand.notBinary, fun hne => absurd (eq_of_beq hi) hne⟩
  · next hi =>
    have hc := h.operand _ s e s' hs hr
    exact ⟨hc.reads, fun he => absurd (beq_iff_eq.mpr he) hi, fun _ => hc⟩

end Groups

/-- An operator that comes behind an expression can take it as its left operand. -/
theorem Climbed.left (h : Climbed ts level s₀ s e)
    (ho : binaryOperator? s.stream.current = some (operator, own)) {q : String} {l : Nat}
    (hq : s.arena.Operates e q l) :
    own < l ∨ own = l ∧ groupsToRight operator = false ∨ q = "instanceof" ∧ operator = "**" := by
  have hown := level?_of_binaryOperator? ho
  obtain ⟨left, right, hp, hl⟩ := hq
  obtain ⟨l', hl', -, hstop⟩ := h.binary left q right hp
  obtain rfl : l = l' := Option.some.inj (hl.symm.trans hl')
  -- operators of one level group to the same side
  have hside (he : own = l) (hq : groupsToRight q = false) : groupsToRight operator = false := by
    rw [Bool.eq_false_iff, ne_eq, groupsToRight_iff hl] at hq
    rw [Bool.eq_false_iff, ne_eq, groupsToRight_iff hown, he]
    exact hq
  rcases hstop with rfl | hstop
  · obtain rfl : l = 18 := Option.some.inj (hl.symm.trans level?_instanceof)
    rcases Nat.lt_trichotomy own 18 with hlt | heq | hgt
    · exact .inl hlt
    · exact .inr (.inl ⟨heq, hside heq (by decide)⟩)
    · exact .inr (.inr ⟨rfl, eq_of_level?_of_lt hown hgt⟩)
  · have hlt := hstop operator own ho
    unfold rightLevel at hlt
    split at hlt
    · exact .inl hlt
    · next hq =>
      rcases (Nat.lt_succ_iff.mp hlt).lt_or_eq with hlt | heq
      · exact .inl hlt
      · exact .inr (.inl ⟨heq, hside heq (Bool.eq_false_iff.mpr hq)⟩)

theorem RightAt.right (h : RightAt ts operator own s s' e) {q : String} {l : Nat}
    (hq : s'.arena.Operates e q l) : own < l ∨ own = l ∧ groupsToRight operator = true := by
  obtain ⟨left, right, hp, hl⟩ := hq
  have hne : operator ≠ "instanceof" := fun hi => h.classRef hi left q right hp
  obtain ⟨l', hl', hle, -⟩ := (h.climbed hne).binary left q right hp
  obtain rfl : l = l' := Option.some.inj (hl.symm.trans hl')
  unfold rightLevel at hle
  split at hle
  · next hg =>
    rcases hle.lt_or_eq with hlt | heq
    · exact .inl hlt
    · exact .inr ⟨heq, hg⟩
  · exact .inl hle

/-- The node of an operator between two operands reads as all that is read, and groups them. -/
theorem Climbed.grouped (h : Climbed ts level s₀ s e) (h₀ : s₀.On ts) (hs : s.On ts)
    (ho : binaryOperator? s.stream.current = some (operator, own)) {right : NodeId}
    (hpassed : Passed ts s.next s₁) (hright : RightAt ts operator own s.next s₁ right) :
    let whole := s₁.noded (.binary (some e) operator (some right)) s₀.stream.current.start
    ReadsBetween ts s₀ whole s₁.arena.size ∧
      whole.arena.Grouped ts s₁.arena.size e right operator own := by
  intro whole
  have hkept : s₁.arena.PrefixOf whole.arena := Arena.prefixOf_added
  have hbefore : s.arena.PrefixOf whole.arena := hpassed.kept.trans hkept
  obtain ⟨xs, hx, hleft⟩ := h.reads
  obtain ⟨ys, hy, hreads⟩ := hright.reads
  have htokens := hs.tokens_around (ne_endOfFile_of_binaryOperator? ho) hx hy
  have hpayload : whole.arena.payload? s₁.arena.size =
      some (.binary (some e) operator (some right)) := by
    rw [State.payload?_noded, if_pos rfl]
  have hspan : whole.arena.span? s₁.arena.size =
      some ⟨s₀.stream.current.start, max s₁.readTo s₀.stream.current.start⟩ := by
    rw [State.span?_noded, if_pos rfl]
  have hl : whole.arena.Reads ts e xs := hleft.mono hbefore
  have hr : whole.arena.Reads ts right ys := hreads.mono hkept
  refine ⟨⟨_, htokens, .binary hpayload ho hl hr⟩, ?_⟩
  constructor
  · exact ⟨_, xs, _, ys, hspan, h₀.tokens_span hpassed.on htokens, ho, hl, hr⟩
  · intro q l hq
    exact h.left ho ((hbefore.operates_iff hleft.lt_size).mp hq)
  · intro q l hq
    exact hright.right ((hkept.operates_iff hreads.lt_size).mp hq)
  · intro hi left q r
    rw [hkept.payload right hreads.lt_size]
    exact hright.classRef hi left q r

/-- Such a node can be a left operand in its turn. -/
theorem Climbed.step (h : Climbed ts level s₀ s e) (h₀ : s₀.On ts) (hs : Passed ts s₀ s)
    (ho : binaryOperator? s.stream.current = some (operator, own)) (hle : level ≤ own) {right : NodeId}
    (hpassed : Passed ts s.next s₁) (hright : RightAt ts operator own s.next s₁ right) :
    let whole := s₁.noded (.binary (some e) operator (some right)) s₀.stream.current.start
    Passed ts s₀ whole ∧ Climbed ts level s₀ whole s₁.arena.size := by
  intro whole
  obtain ⟨hreads, hgrouped⟩ := h.grouped h₀ hs.on ho hpassed hright
  have hown : level? operator = some own := level?_of_binaryOperator? ho
  constructor
  · refine ((hs.trans (.next hs.on)).trans hpassed).trans (.noded hpassed.on ?_)
    intro l hl
    obtain rfl : own = l := Option.some.inj (hown.symm.trans hl)
    exact ⟨e, right, rfl, rfl, hgrouped⟩
  · refine ⟨hreads, fun left q r hq => ?_⟩
    rw [State.payload?_noded, if_pos rfl] at hq
    cases hq
    refine ⟨own, hown, hle, ?_⟩
    by_cases hi : operator = "instanceof"
    · exact .inl hi
    · exact .inr (hright.climbed hi).stops

namespace Groups

variable (h : Groups ts self)

include h

/-- The loop goes on from an expression up to an operator of a lower level. -/
theorem climbs (h₀ : s₀.On ts) (hs : Passed ts s₀ s) (hc : Climbed ts level s₀ s e)
    (hr : (operators self level s₀.stream.current.start n e).run s = some (r, s')) :
    Passed ts s₀ s' ∧ ∀ e' ∈ r, ClimbedAll ts level s₀ s' e' := by
  induction n generalizing s e with
  | zero => cases hr
  | succ n ih =>
    have hend (hstop : ∀ p l, binaryOperator? s.stream.current = some (p, l) → l < level)
        (hr : (pure (some e) : Parse (Option NodeId)).run s = some (r, s')) :
        Passed ts s₀ s' ∧ ∀ e' ∈ r, ClimbedAll ts level s₀ s' e' := by
      cases hr
      refine ⟨hs, ?_⟩
      rintro e' ⟨⟩
      exact ⟨hc, hstop⟩
    rw [operators, looks_token.run_bind] at hr
    split at hr
    · next operator own ho =>
      split at hr
      · next hlt =>
        apply hend _ hr
        intro p l hp
        cases ho.symm.trans hp
        exact hlt
      · next hle =>
        obtain ⟨_, s₁, hadvance, hr⟩ := run_bind_eq_some hr
        obtain rfl : s₁ = s.next := by cases hadvance; rfl
        obtain ⟨right, s₂, hright, hr⟩ := run_bind_eq_some hr
        have hpassed := h.passes_rightOperand s.next right s₂ hs.on.next hright
        -- no node is added for an operator whose right operand is missing
        cases right with
        | none =>
          cases hr
          exact ⟨(hs.trans (.next hs.on)).trans hpassed, fun _ he => nomatch he⟩
        | some right =>
          obtain ⟨hs', hc'⟩ := hc.step h₀ hs ho (Nat.not_lt.mp hle) hpassed
            (h.rightAt hs.on.next hright)
          exact ih hs' hc' hr
    · next ho =>
      apply hend _ hr
      intro p l hp
      exact absurd hp (ho p l)

theorem climbs_operand (hs : s.On ts) (hr : (Grammar.operand self n level).run s = some (r, s')) :
    Passed ts s s' ∧ ∀ e ∈ r, ClimbedAll ts level s s' e := by
  rw [Grammar.operand, looks_token.run_bind] at hr
  obtain ⟨left, s₁, hleft, hr⟩ := run_bind_eq_some hr
  have hpassed := h.passes .unary s left s₁ hs hleft
  cases left with
  | none =>
    cases hr
    exact ⟨hpassed, fun _ he => nomatch he⟩
  | some left => exact h.climbs hs hpassed (h.unary s left s₁ hs hleft).climbed hr

end Groups

end Grammar

end PhpAtlas
