import PhpAtlas.Grammar.Statement
import PhpAtlas.Proofs.Looks

/-! # Rules that pass over tokens

Many rules have no nodes: they look at tokens, read some of them and report what
is missing. What reading a token and a report have in common, and what rules
inherit from the rules that they are put together from, holds of all of them.
-/

namespace PhpAtlas.Grammar

/-- The state after the current token. -/
def State.next (s : State) : State :=
  { s with stream := s.stream.next, readTo := s.stream.current.stop }

theorem run_advance_next {s : State} : advance.run s = some ((), s.next) := rfl

section Expecting

variable {s : State} {kind : TokenKind} {spelling : String}

/-- Where the token is, accepting it is reading it. -/
theorem run_accept_of_kind (h : s.stream.current.kind = kind) :
    (accept kind).run s = some (true, s.next) := by
  rw [accept, (looks_isAt kind).run_bind, if_pos (beq_iff_eq.mpr h)]
  rfl

/-- Elsewhere it is left. -/
theorem run_accept_of_ne (h : s.stream.current.kind ≠ kind) :
    (accept kind).run s = some (false, s) := by
  rw [accept, (looks_isAt kind).run_bind, if_neg (mt beq_iff_eq.mp h)]
  rfl

/-- Where the token is, expecting it is reading it. -/
theorem run_expect_of_kind (h : s.stream.current.kind = kind) :
    (expect kind spelling).run s = some (true, s.next) := by
  rw [expect, run_bind_of_eq (run_accept_of_kind h)]
  rfl

theorem run_discard_expect_of_kind (h : s.stream.current.kind = kind) :
    (discard (expect kind spelling)).run s = some ((), s.next) := by
  rw [Functor.discard, map_const, Function.comp_apply, StateT.run_map, run_expect_of_kind h]
  rfl

end Expecting

/-- A rule is too deep, or it is run one level deeper. -/
theorem run_nested_eq_some {s s' : State} {m : Parse (Option NodeId)} {recover : Parse Unit}
    {a : Option NodeId} (h : (nested recover m).run s = some (a, s')) :
    (maxDepth < s.depth + 1 ∧ ∃ s₁ s₂,
      (report .tooDeep).run { s with depth := s.depth + 1 } = some ((), s₁) ∧
      recover.run { s₁ with depth := s₁.depth - 1 } = some ((), s₂) ∧ s' = s₂) ∨
    ∃ s₁, s.depth + 1 ≤ maxDepth ∧ m.run { s with depth := s.depth + 1 } = some (a, s₁) ∧
      s' = { s₁ with depth := s₁.depth - 1 } := by
  obtain ⟨_, s₁, h₁, h⟩ := run_bind_eq_some h
  cases h₁
  rw [looks_get.run_bind] at h
  split at h
  · next hd =>
    obtain ⟨_, s₁, h₁, h⟩ := run_bind_eq_some h
    obtain ⟨_, s₂, h₂, h⟩ := run_bind_eq_some h
    cases h₂
    obtain ⟨_, s₃, h₃, h⟩ := run_bind_eq_some h
    cases h
    exact .inl ⟨hd, s₁, s', h₁, h₃, rfl⟩
  · next hd =>
    obtain ⟨b, s₁, h₁, h⟩ := run_bind_eq_some h
    obtain ⟨_, s₂, h₂, h⟩ := run_bind_eq_some h
    cases h₂
    cases h
    exact .inr ⟨s₁, Nat.le_of_not_lt hd, h₁, rfl⟩

theorem run_nested {recover : Parse Unit} {m : Parse (Option NodeId)} {r : Option NodeId}
    (hd : s.depth < maxDepth) (hm : m.run { s with depth := s.depth + 1 } = some (r, s')) :
    (nested recover m).run s = some (r, { s' with depth := s'.depth - 1 }) := by
  have hn : ¬ maxDepth < s.depth + 1 := by omega
  have hdeeper : (modify fun s : State => { s with depth := s.depth + 1 } : Parse Unit).run s =
      some ((), { s with depth := s.depth + 1 }) := rfl
  rw [nested, run_bind_of_eq hdeeper, looks_get.run_bind]
  dsimp only [id]
  rw [if_neg hn, run_bind_of_eq hm]
  rfl

/-- At the deepest level the rule is not run. -/
theorem run_nested_of_deep {recover : Parse Unit} {m : Parse (Option NodeId)} {s₁ : State}
    (hd : maxDepth ≤ s.depth)
    (hreport : (report .tooDeep).run { s with depth := s.depth + 1 } = some ((), s₁))
    (hrecover : recover.run { s₁ with depth := s₁.depth - 1 } = some ((), s')) :
    (nested recover m).run s = some (none, s') := by
  have hdeeper : (modify fun s : State => { s with depth := s.depth + 1 } : Parse Unit).run s =
      some ((), { s with depth := s.depth + 1 }) := rfl
  have hback : (modify fun s : State => { s with depth := s.depth - 1 } : Parse Unit).run s₁ =
      some ((), { s₁ with depth := s₁.depth - 1 }) := rfl
  rw [nested, run_bind_of_eq hdeeper, looks_get.run_bind]
  dsimp only [id]
  rw [if_pos (Nat.lt_succ_of_le hd), run_bind_of_eq hreport, run_bind_of_eq hback,
    run_bind_of_eq hrecover]
  rfl

/-- A property that rules inherit from their parts, and that looking, reading and reporting have.
That the nesting is too deep is no report of a rule's own. -/
structure Inherited (P : (α : Type) → Parse α → Prop) : Prop where
  pure {α : Type} (a : α) : P α (Pure.pure a)
  bind {α β : Type} {m : Parse α} {f : α → Parse β} (hm : P α m) (hf : ∀ a, P β (f a)) :
    P β (m >>= f)
  look {α : Type} {m : Parse α} {g : State → α} (hm : Looks m g) : P α m
  outOfSteps {α : Type} : P α outOfSteps
  advance : P Unit advance
  report {fault : SyntaxFault} (h : fault ≠ .tooDeep) : P Unit (report fault)

namespace Inherited

variable {P : (α : Type) → Parse α → Prop} {α β : Type} {n : Nat}

section

variable (h : Inherited P)

include h

theorem looking {m : Parse α} {g : State → α} {f : α → Parse β} (hm : Looks m g)
    (hf : ∀ a, P β (f a)) : P β (m >>= f) :=
  h.bind (h.look hm) hf

theorem map {m : Parse α} {f : α → β} (hm : P α m) : P β (f <$> m) := by
  rw [← bind_pure_comp]
  exact h.bind hm fun a => h.pure (f a)

theorem discard {m : Parse α} (hm : P α m) : P PUnit (Functor.discard m) := h.map hm

end

theorem ite {p : Prop} [Decidable p] {m₁ m₂ : Parse α} (h₁ : P α m₁) (h₂ : P α m₂) :
    P α (if p then m₁ else m₂) := by
  split
  · exact h₁
  · exact h₂

variable (h : Inherited P)

include h

theorem accept {kind : TokenKind} : P Bool (accept kind) :=
  h.looking (looks_isAt kind) fun _ => ite (h.bind h.advance fun _ => h.pure true) (h.pure false)

theorem expect {kind : TokenKind} {spelling : String} : P Bool (expect kind spelling) :=
  h.bind h.accept fun _ => ite (h.pure true) (h.bind (h.report nofun) fun _ => h.pure false)

theorem expectSemicolon : P Unit expectSemicolon := by
  refine h.bind h.accept fun _ => ite (h.pure ()) ?_
  exact h.looking (looks_isAt _) fun _ => ite (h.pure ()) (h.report nofun)

/-- The depth of the nesting may be changed, too. -/
theorem nested {recover : Parse Unit} {rule : Parse (Option NodeId)}
    (hd : ∀ d : Nat → Nat, P PUnit (modify fun s => { s with depth := d s.depth }))
    (hdeep : P Unit (Grammar.report .tooDeep)) (hrecover : P Unit recover)
    (hrule : P (Option NodeId) rule) : P (Option NodeId) (nested recover rule) := by
  refine h.bind (hd (· + 1)) fun _ => h.looking looks_get fun _ => ite ?_ ?_
  · refine h.bind hdeep fun _ => h.bind (hd (· - 1)) fun _ => ?_
    exact h.bind hrecover fun _ => h.pure none
  · exact h.bind hrule fun r => h.bind (hd (· - 1)) fun _ => h.pure r

/-! ## Type hints -/

theorem singleHint : P (Option TypeHint) singleHint := by
  apply h.looking looks_token
  intro t
  split
  · exact h.bind h.advance fun _ => h.pure _
  · exact h.bind (h.report nofun) fun _ => h.pure none

theorem joinedHints : P (Option (List TypeHint)) (joinedHints n) := by
  induction n with
  | zero => exact h.outOfSteps
  | succ n ih =>
    apply h.looking (looks_kindAhead 1)
    intro next
    refine h.looking (looks_isAt _) fun _ => ite (h.bind h.advance fun _ => ?_) (h.pure _)
    apply h.bind h.singleHint
    rintro (_ | hint)
    · exact h.pure none
    · exact h.bind ih fun rest => h.pure _

theorem intersectionHint : P (Option TypeHint) (intersectionHint n) := by
  apply h.bind h.singleHint
  rintro (_ | first)
  · exact h.pure none
  · apply h.bind h.joinedHints
    rintro (_ | rest)
    · exact h.pure none
    · exact h.pure _

theorem memberHint : P (Option TypeHint) (memberHint n) := by
  refine h.bind h.accept fun _ => ite ?_ h.intersectionHint
  apply h.bind h.intersectionHint
  rintro (_ | inner)
  · exact h.pure none
  · exact h.bind (h.discard h.expect) fun _ => h.pure _

theorem unitedHints {bound : Nat} : P (Option (List TypeHint)) (unitedHints bound n) := by
  induction n with
  | zero => exact h.outOfSteps
  | succ n ih =>
    refine h.bind h.accept fun _ => ite ?_ (h.pure _)
    apply h.bind h.memberHint
    rintro (_ | hint)
    · exact h.pure none
    · exact h.bind ih fun rest => h.pure _

theorem hint : P (Option TypeHint) (hint n) := by
  refine h.bind h.accept fun _ => ite (h.bind h.singleHint fun _ => h.pure _) ?_
  apply h.bind h.memberHint
  rintro (_ | first)
  · exact h.pure none
  · apply h.bind h.unitedHints
    rintro (_ | rest)
    · exact h.pure none
    · exact h.pure _

theorem loneHint : P (Option TypeHint) (loneHint n) := by
  refine h.bind h.advance fun _ => h.bind h.hint ?_
  rintro (_ | result)
  · exact h.pure none
  · refine h.looking (looks_isAt _) fun _ => ite (h.pure _) ?_
    exact h.bind (h.report nofun) fun _ => h.pure _

theorem hintAfterColon : P (Option TypeHint) (hintAfterColon n) :=
  h.bind h.accept fun _ => ite h.hint (h.pure none)

theorem parameterHint : P (Option TypeHint) (parameterHint n) :=
  h.looking looks_token fun _ => ite (h.pure none) h.hint

theorem propertyHint : P (Option TypeHint) (propertyHint n) :=
  h.looking (looks_isAt _) fun _ => ite (h.pure none) h.hint

theorem constantHint : P Unit (constantHint n) :=
  h.looking looks_token fun _ => h.looking (looks_kindAhead 1) fun _ =>
    ite (h.discard h.hint) (h.pure ())

theorem backingHint {form : ClassForm} : P Unit (backingHint n form) :=
  ite (h.discard h.hintAfterColon) (h.pure ())

/-! ## Runs of tokens -/

theorem skipRun {depth : Nat} : P Unit (skipRun n depth) := by
  induction n generalizing depth with
  | zero => exact h.outOfSteps
  | succ n ih =>
    apply h.looking looks_token
    intro t
    split
    · exact h.pure ()
    all_goals
      first
      | exact h.bind h.advance fun _ => ih
      | exact ite (h.pure ()) (h.bind h.advance fun _ => ih)

theorem skipStatement {depth : Nat} : P Unit (skipStatement n depth) := by
  induction n generalizing depth with
  | zero => exact h.outOfSteps
  | succ n ih =>
    have hstop : P Unit (Pure.pure ()) := h.pure ()
    apply h.looking looks_token
    intro t
    split
    · exact hstop
    all_goals
      first
      | exact h.bind h.advance fun _ => ih
      | exact ite hstop (h.bind h.advance fun _ => ih)
      | exact h.bind h.advance fun _ => ite hstop ih
      | exact ite hstop (h.bind h.advance fun _ => h.looking looks_token fun _ => ite hstop ih)

theorem passOver {before : Token} : P Unit (passOver before) :=
  h.looking looks_token fun _ => ite (h.bind (h.report nofun) fun _ => h.advance) (h.pure ())

theorem passOverMember {before : Token} : P Unit (passOverMember before) :=
  h.looking looks_token fun _ => ite (h.bind (h.report nofun) fun _ => h.advance) (h.pure ())

theorem argumentName : P Unit argumentName :=
  h.looking looks_token fun _ => h.looking (looks_kindAhead 1) fun _ =>
    ite (h.bind h.advance fun _ => h.advance) (h.pure ())

theorem conflictRules : P Unit (conflictRules n) :=
  h.looking (looks_isAt _) fun _ => ite h.skipStatement h.expectSemicolon

theorem refuseColon : P Unit refuseColon :=
  h.looking (looks_isAt _) fun _ => ite (h.report nofun) (h.pure ())

/-! ## Modifiers, imports and names of namespaces -/

theorem modifiers {found : Modifiers} : P Modifiers (modifiers n found) := by
  induction n generalizing found with
  | zero => exact h.outOfSteps
  | succ n ih =>
    apply h.looking looks_token
    intro t
    split
    · exact h.looking (looks_kindAhead 1) fun _ => ite (h.pure _) (h.bind h.advance fun _ => ih)
    · exact h.pure _

theorem importAlias : P (Option String) importAlias := by
  refine h.bind h.accept fun _ => ite (h.looking looks_token fun _ => ?_) (h.pure none)
  exact h.bind h.accept fun _ => ite (h.pure _) (h.bind (h.report nofun) fun _ => h.pure none)

theorem groupItems {shared : String} : P (List Import) (groupItems shared n) := by
  induction n with
  | zero => exact h.outOfSteps
  | succ n ih =>
    refine h.looking looks_token fun _ => ite (h.pure _) (h.bind h.advance fun _ => ?_)
    refine h.bind h.importAlias fun _ => h.bind h.accept fun _ => ite ?_ (h.pure _)
    exact h.bind ih fun _ => h.pure _

theorem importGroup {shared : String} : P (List Import) (importGroup n shared) := by
  refine h.bind h.expect fun _ => ite (h.bind h.groupItems fun _ => ?_) (h.pure _)
  exact h.bind (h.discard h.expect) fun _ => h.pure _

theorem importTail {name : String} : P (List Import) (importTail n name) := by
  refine h.looking looks_token fun _ => ite (h.bind h.advance fun _ => h.importGroup) ?_
  exact h.bind h.importAlias fun _ => h.pure _

theorem importItems {bound : Nat} : P (List Import) (importItems bound n) := by
  induction n with
  | zero => exact h.outOfSteps
  | succ n ih =>
    refine h.looking looks_token fun _ => ite (h.bind (h.report nofun) fun _ => h.pure _) ?_
    refine h.bind h.advance fun _ => h.bind h.importTail fun _ => h.bind h.accept fun _ => ?_
    exact ite (h.bind ih fun _ => h.pure _) (h.pure _)

theorem importForm : P ImportForm importForm :=
  h.bind h.accept fun _ => ite (h.pure _) (h.bind h.accept fun _ => ite (h.pure _) (h.pure _))

theorem namespaceName : P (Option String) namespaceName :=
  h.looking looks_token fun _ => ite (h.bind h.advance fun _ => h.pure _) (h.pure none)

theorem namespaceEnd {name : Option String} : P Unit (namespaceEnd name) :=
  ite (h.bind (h.report nofun) fun _ => h.expectSemicolon) h.expectSemicolon

end Inherited

end PhpAtlas.Grammar
