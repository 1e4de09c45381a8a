import PhpAtlas.Proofs.Operators.Grouping

/-! # Operands

A rule of an operand ends by adding its node, from where the rule has started on. So the
span of the node has the tokens that the rule has read, and an operand reads as these.
-/

namespace PhpAtlas.Grammar

variable {α β : Type} {ts : List Token} {s s' s₀ s₁ : State} {m : Parse α} {f : α → Parse β}
variable {C : Payload (Option NodeId) → Prop} {payload : Payload (Option NodeId)} {e : NodeId}
variable {out : α → Option NodeId} {res : β → Option NodeId} {self : Rules} {n : Nat}

/-- The span of the node has the tokens that are read between the states. -/
def Spells (ts : List Token) (C : Payload (Option NodeId) → Prop) (s s' : State) (e : NodeId) :
    Prop :=
  ∃ p span, s'.arena.payload? e = some p ∧ C p ∧ s'.arena.span? e = some span ∧
    s.stream.tokens = span.tokens ts ++ s'.stream.tokens

theorem spells_noded (h₀ : s₀.On ts) (hs : Passed ts s₀ s) (hp : C payload) :
    Spells ts C s₀ (s.noded payload s₀.stream.current.start) s.arena.size := by
  obtain ⟨xs, hx⟩ := hs.later
  refine ⟨payload, ⟨s₀.stream.current.start, max s.readTo s₀.stream.current.start⟩, ?_, hp, ?_, ?_⟩
  · rw [State.payload?_noded, if_pos rfl]
  · rw [State.span?_noded, if_pos rfl]
  · rw [h₀.tokens_span hs.on hx.symm]
    exact hx.symm

/-! ## Rules that end with a node -/

/-- What the rule has as its result spells what is read from the first state on. -/
def EndsFrom (ts : List Token) (C : Payload (Option NodeId) → Prop) (s₀ s : State)
    (out : α → Option NodeId) (m : Parse α) : Prop :=
  ∀ r s', m.run s = some (r, s') → ∀ e ∈ out r, Spells ts C s₀ s' e

/-- The same from every state further on. -/
def Ends (ts : List Token) (C : Payload (Option NodeId) → Prop) (s₀ : State)
    (out : α → Option NodeId) (m : Parse α) : Prop :=
  ∀ s, Passed ts s₀ s → EndsFrom ts C s₀ s out m

theorem EndsFrom.look {g : State → α} (hm : Looks m g) (hf : EndsFrom ts C s₀ s res (f (g s))) :
    EndsFrom ts C s₀ s res (m >>= f) := by
  intro r s' hr
  rw [hm.run_bind] at hr
  exact hf r s' hr

theorem EndsFrom.ite {p : Prop} [Decidable p] {m₁ m₂ : Parse α} (h₁ : EndsFrom ts C s₀ s out m₁)
    (h₂ : EndsFrom ts C s₀ s out m₂) : EndsFrom ts C s₀ s out (if p then m₁ else m₂) := by
  split
  · exact h₁
  · exact h₂

theorem EndsFrom.bind (hs : Passed ts s₀ s) (hm : Passes ts m) (hf : ∀ a, Ends ts C s₀ res (f a)) :
    EndsFrom ts C s₀ s res (m >>= f) := by
  intro r s'' hr
  obtain ⟨a, s', hr, hr'⟩ := run_bind_eq_some hr
  exact hf a s' (hs.trans (hm s a s' hs.on hr)) r s'' hr'

theorem Ends.bind (hm : Passes ts m) (hf : ∀ a, Ends ts C s₀ res (f a)) :
    Ends ts C s₀ res (m >>= f) :=
  fun _ hs => .bind hs hm hf

theorem Ends.look {g : State → α} (hm : Looks m g) (hf : ∀ a, Ends ts C s₀ res (f a)) :
    Ends ts C s₀ res (m >>= f) :=
  .bind ((inherited_passes ts).look hm) hf

theorem Ends.ite {p : Prop} [Decidable p] {m₁ m₂ : Parse α} (h₁ : Ends ts C s₀ out m₁)
    (h₂ : Ends ts C s₀ out m₂) : Ends ts C s₀ out (if p then m₁ else m₂) :=
  fun s hs => .ite (h₁ s hs) (h₂ s hs)

theorem Ends.map {g : α → β} (hm : Ends ts C s₀ (res ∘ g) m) : Ends ts C s₀ res (g <$> m) := by
  intro s hs r s' hr
  rw [StateT.run_map] at hr
  obtain ⟨⟨a, s₁⟩, hrun, he⟩ := Option.map_eq_some_iff.mp hr
  cases he
  exact hm s hs a s₁ hrun

/-- A rule without a result. -/
theorem Ends.pure {a : α} (h : out a = none) : Ends ts C s₀ out (Pure.pure a) := by
  intro s _ r s' hr e he
  cases hr
  rw [h] at he
  cases he

theorem Ends.fail {part : String} : Ends ts C s₀ id (fail part) :=
  .bind ((inherited_passes ts).report nofun) fun _ => .pure rfl

theorem Ends.done (h₀ : s₀.On ts) (hp : C payload) :
    Ends ts C s₀ id (done payload s₀.stream.current.start) := by
  intro s hs r s' hr e he
  cases hr
  obtain rfl := Option.some.inj he
  exact spells_noded h₀ hs hp

/-! ## Operands -/

/-- Rules of expressions that pass over tokens as they should. -/
abbrev PassesExpressions (ts : List Token) (self : Rules) : Prop :=
  OfExpressions (fun _ m => Passes ts m) self

/-- The node reads as the tokens between the states. -/
def ReadsBetween (ts : List Token) (s s' : State) (e : NodeId) : Prop :=
  ∃ xs, s.stream.tokens = xs ++ s'.stream.tokens ∧ s'.arena.Reads ts e xs

/-- The node is an operand that does so. -/
structure OperandAt (ts : List Token) (s s' : State) (e : NodeId) : Prop where
  operand : s'.arena.IsOperand e
  reads : ReadsBetween ts s s' e

theorem OperandAt.of_spells (h : Spells ts (·.isOperand = true) s s' e) : OperandAt ts s s' e := by
  obtain ⟨p, span, hp, ho, hspan, htokens⟩ := h
  exact ⟨⟨p, hp, ho⟩, _, htokens, .operand hp ho hspan⟩

/-- The result of the rule is such an operand. -/
def ReadsOperand (ts : List Token) (m : Parse (Option NodeId)) : Prop :=
  ∀ s e s', s.On ts → m.run s = some (some e, s') → OperandAt ts s s' e

section

variable (h₀ : s₀.On ts)

include h₀

theorem endsFrom_classNameRule : EndsFrom ts (·.isOperand = true) s₀ s₀ id classNameRule := by
  refine .look looks_token (.ite (Ends.fail s₀ (.refl h₀)) ?_)
  exact .bind (.refl h₀) (inherited_passes ts).advance fun _ => .done h₀ rfl

theorem endsFrom_variableVariable (h : PassesExpressions ts self) :
    EndsFrom ts (·.isOperand = true) s₀ s₀ id (variableVariable self) := by
  have hc := composed_passes ts
  refine .look looks_token (.bind (.refl h₀) hc.advance fun _ => ?_)
  exact .bind (hc.variableTarget h) fun _ => .done h₀ rfl

/-- The span of an array starts with its bracket. -/
theorem endsFrom_arrayLiteral {kind : TokenKind} {spelling : String} (h : PassesExpressions ts self) :
    EndsFrom ts (fun p => ∃ entries, p = .array entries) s₀ s₀ id
      (arrayLiteral self n kind spelling) := by
  have hc := composed_passes ts
  refine .look looks_token (.bind (.refl h₀) hc.advance fun _ => .bind (hc.arrayEntries h) fun _ => ?_)
  exact .bind (hc.discard hc.expect) fun _ => .done h₀ ⟨_, rfl⟩

theorem endsFrom_newExpression (h : PassesExpressions ts self) :
    EndsFrom ts (·.isOperand = true) s₀ s₀ id (newExpression self n) := by
  have hc := composed_passes ts
  refine .look looks_token (.bind (.refl h₀) hc.advance fun _ => .look (looks_isAt _) fun _ => ?_)
  refine .ite (.bind hc.skipRun fun _ => .done h₀ rfl) (.bind (hc.classReference h) ?_)
  rintro (_ | classRef)
  · exact .pure rfl
  · exact .bind (hc.optionalArguments h) fun _ => .done h₀ rfl

theorem ends_member {call : CallForm} {access : AccessForm} {callable nullsafe : Bool}
    (h : PassesExpressions ts self) : Ends ts (·.isOperand = true) s₀ id
      (member self n s₀.stream.current.start e call access callable nullsafe) := by
  have hc := composed_passes ts
  apply Ends.bind (hc.memberName h)
  rintro (_ | name)
  · exact .pure rfl
  · refine .look (looks_isAt _) fun _ => .ite (.bind (hc.arguments h) fun _ => ?_) ?_
    · exact .done h₀ rfl
    · exact .done h₀ rfl

/-- What a suffix makes of an expression spells that with the suffix. -/
theorem ends_suffix (h : PassesExpressions ts self) : Ends ts (·.isOperand = true) s₀ Option.join
    (suffix self n s₀.stream.current.start e) := by
  have hc := composed_passes ts
  have hd {payload : Payload (Option NodeId)} (hp : payload.isOperand = true) :
      Ends ts (·.isOperand = true) s₀ Option.join
        (some <$> Grammar.done payload s₀.stream.current.start) := .map (.done h₀ hp)
  apply Ends.look looks_token
  intro t
  split
  · exact .bind hc.advance fun _ => .map (ends_member h₀ h)
  · exact .bind hc.advance fun _ => .map (ends_member h₀ h)
  · exact .bind hc.advance fun _ => .look (looks_isAt _) fun _ => .map (ends_member h₀ h)
  · exact .bind (hc.arguments h) fun _ => hd rfl
  · refine .bind hc.advance fun _ => .bind (hc.elementIndex h) fun _ => ?_
    exact .bind (hc.discard hc.expect) fun _ => hd rfl
  · exact .ite (.bind hc.advance fun _ => hd rfl) (.pure rfl)
  · exact .pure rfl

end

/-- The rule has a result in any case. -/
def Always (m : Parse (Option α)) : Prop := ∀ s r s', m.run s = some (r, s') → r ≠ none

theorem always_map {m : Parse α} : Always (some <$> m) := by
  intro s r s' hr
  rw [StateT.run_map] at hr
  obtain ⟨⟨a, s₁⟩, -, he⟩ := Option.map_eq_some_iff.mp hr
  cases he
  exact Option.some_ne_none a

theorem Always.bind {m : Parse α} {f : α → Parse (Option β)} (hf : ∀ a, Always (f a)) :
    Always (m >>= f) := by
  intro s r s'' hr
  obtain ⟨a, s', -, hr'⟩ := run_bind_eq_some hr
  exact hf a s' r s'' hr'

/-- Where there is no suffix nothing is read. -/
theorem eq_of_suffix_eq_none {start : Nat} (hr : (suffix self n start e).run s = some (none, s')) :
    s' = s := by
  have hne {m : Parse (Option (Option NodeId))} (hm : Always m) (hr : m.run s = some (none, s')) :
      s' = s := absurd rfl (hm s none s' hr)
  rw [suffix, looks_token.run_bind] at hr
  split at hr
  · exact hne (.bind fun _ => always_map) hr
  · exact hne (.bind fun _ => always_map) hr
  · exact hne (.bind fun _ => .bind fun _ => always_map) hr
  · exact hne (.bind fun _ => always_map) hr
  · exact hne (.bind fun _ => .bind fun _ => .bind fun _ => always_map) hr
  · split at hr
    · exact hne (.bind fun _ => always_map) hr
    · cases hr
      rfl
  · cases hr
    rfl

/-- The word in front of the brackets of an array is an operand's token, too. -/
theorem operandAt_array (hs : s₀.On ts) (hw : s₀.stream.current.isWord "array" = true)
    (h : Spells ts (fun p => ∃ entries, p = .array entries) s₀.next s' e) : OperandAt ts s₀ s' e := by
  obtain ⟨-, span, hp, ⟨entries, rfl⟩, hspan, htokens⟩ := h
  have hk : s₀.stream.current.kind ≠ .endOfFile := ne_endOfFile_of_isWord hw
  refine ⟨⟨_, hp, rfl⟩, s₀.stream.current :: span.tokens ts, ?_, .array hp hspan hw⟩
  rw [hs.tokens_eq hk, List.cons_append]
  exact congrArg _ htokens

theorem readsOperand_primary (h : PassesExpressions ts self) : ReadsOperand ts (primary self n) := by
  intro s e s' hs hr
  have hc := composed_passes ts
  have hends {m : Parse (Option NodeId)} (hm : EndsFrom ts (·.isOperand = true) s s id m)
      (hr : m.run s = some (some e, s')) : OperandAt ts s s' e := .of_spells (hm _ s' hr e rfl)
  have hskip : Ends ts (·.isOperand = true) s id (skippedExpression n s.stream.current.start) :=
    .bind hc.skipRun fun _ => .done hs rfl
  rw [primary, looks_token.run_bind] at hr
  split at hr
  · exact hends (.bind (.refl hs) hc.advance fun _ => .done hs rfl) hr
  · exact hends (endsFrom_variableVariable hs h) hr
  · exact hends (hskip s (.refl hs)) hr
  · refine hends (.look looks_isAtStaticClosure (.ite (hskip s (.refl hs)) ?_)) hr
    exact .bind (.refl hs) hc.advance fun _ => .done hs rfl
  · rw [(looks_kindAhead 1).run_bind] at hr
    split at hr
    · next hw =>
      obtain ⟨_, s₁, hadvance, hr⟩ := run_bind_eq_some hr
      cases hadvance
      have hspells := endsFrom_arrayLiteral hs.next h _ s' hr e rfl
      exact operandAt_array hs (Bool.and_eq_true_iff.mp hw).1 hspells
    · refine hends (.look looks_isAtArrowOrMatch_eq (.ite (hskip s (.refl hs)) ?_)) hr
      exact endsFrom_classNameRule hs
  · exact hends (endsFrom_classNameRule hs) hr
  · exact hends (endsFrom_classNameRule hs) hr
  · exact hends (.bind (.refl hs) hc.advance fun _ => .done hs rfl) hr
  · exact hends (.bind (.refl hs) hc.advance fun _ => .done hs rfl) hr
  · refine hends (.bind (.refl hs) hc.advance fun _ => .bind (hc.bracketed h) fun _ => ?_) hr
    exact .done hs rfl
  · obtain ⟨p, span, hp, ⟨entries, rfl⟩, hspan, htokens⟩ := endsFrom_arrayLiteral hs h _ s' hr e rfl
    exact .of_spells ⟨_, span, hp, rfl, hspan, htokens⟩
  · exact hends (endsFrom_newExpression hs h) hr
  · exact hends (Ends.fail s (.refl hs)) hr

theorem readsOperand_classReference (hp : ReadsOperand ts (self .primary)) :
    ReadsOperand ts (classReference self) := by
  intro s e s' hs hr
  rw [classReference, looks_token.run_bind] at hr
  split at hr
  · exact hp s e s' hs hr
  · exact hp s e s' hs hr
  · exact hp s e s' hs hr
  · exact hp s e s' hs hr
  · split at hr
    · exact .of_spells (endsFrom_classNameRule hs _ s' hr e rfl)
    · exact .of_spells (Ends.fail s (.refl hs) _ s' hr e rfl)

theorem operandAt_suffixes {bound k : Nat} {e' : NodeId} (h : PassesExpressions ts self)
    (h₀ : s₀.On ts) (hs : Passed ts s₀ s) (he : OperandAt ts s₀ s e)
    (hr : (suffixes self bound s₀.stream.current.start k e).run s = some (some e', s')) :
    OperandAt ts s₀ s' e' := by
  induction k generalizing s e with
  | zero => cases hr
  | succ k ih =>
    obtain ⟨r, s₁, hsuffix, hr⟩ := run_bind_eq_some hr
    have hpassed := (composed_passes ts).suffix h s r s₁ hs.on hsuffix
    rcases r with _ | _ | e₁
    · cases hr
      obtain rfl := eq_of_suffix_eq_none hsuffix
      exact he
    · cases hr
    · have hspells := ends_suffix h₀ h s hs _ s₁ hsuffix e₁ rfl
      exact ih (hs.trans hpassed) (.of_spells hspells) hr

end PhpAtlas.Grammar
