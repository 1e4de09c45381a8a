import PhpAtlas.Proofs.Building.Statements
import PhpAtlas.Proofs.Composing
import PhpAtlas.Proofs.Tree.Path

/-! # What rules add

A rule adds nodes to the arena one after the other and changes nothing else of
it but parents. Which constructs it adds does not depend on what it has in its
hands: expressions are made of neither classes nor functions.
-/

namespace PhpAtlas

/-- `b` is `a` with more nodes, each of which was allowed where it was added. -/
abbrev Arena.Extends (ok : Arena → Payload (Option NodeId) → Prop) : Arena → Arena → Prop :=
  Relation.ReflTransGen fun a b =>
    ∃ payload start stop, ok a payload ∧ b = a.added payload start stop

/-- A construct was there before, or was allowed where it was added. -/
theorem Arena.Extends.payload?_cases {ok : Arena → Payload (Option NodeId) → Prop} {a b : Arena}
    {i : NodeId} {payload : Payload (Option NodeId)} (h : a.Extends ok b)
    (hi : b.payload? i = some payload) :
    a.payload? i = some payload ∨ ∃ c, ok c payload ∧ c.Extends ok b := by
  induction h with
  | refl => exact .inl hi
  | @tail c _ _ hb ih =>
    have hstep : c.Extends ok _ := .single hb
    obtain ⟨new, start, stop, hnew, rfl⟩ := hb
    rw [payload?_added] at hi
    split at hi
    · obtain rfl := Option.some.inj hi
      exact .inr ⟨c, hnew, hstep⟩
    · exact (ih hi).imp_right fun ⟨c', hc', he⟩ => ⟨c', hc', he.trans hstep⟩

namespace Grammar

variable {α β : Type} {ok ok' : Arena → Payload (Option NodeId) → Prop}
variable {m : Parse α} {f : α → Parse β}

/-- From the state, the rule adds only nodes that are allowed. -/
def AddsFrom (ok : Arena → Payload (Option NodeId) → Prop) (s : State) (m : Parse α) : Prop :=
  ∀ r s', m.run s = some (r, s') → Later s s' ∧ s.arena.Extends ok s'.arena

/-- The same from every state with bare names. -/
def Adds (ok : Arena → Payload (Option NodeId) → Prop) (m : Parse α) : Prop :=
  ∀ s, s.Bare → AddsFrom ok s m

theorem Adds.mono (hm : Adds ok m) (h : ∀ a payload, ok a payload → ok' a payload) :
    Adds ok' m := by
  intro s hs r s' hr
  obtain ⟨hl, ha⟩ := hm s hs r s' hr
  refine ⟨hl, Relation.ReflTransGen.mono ?_ _ _ ha⟩
  rintro a b ⟨payload, start, stop, hp, rfl⟩
  exact ⟨payload, start, stop, h a payload hp, rfl⟩

theorem Adds.pure {a : α} : Adds ok (Pure.pure a) := by
  intro s _ r s' hr
  cases hr
  exact ⟨Later.refl s, .refl⟩

/-- What comes next runs on a result that the first rule has had. -/
theorem Adds.bindFrom {s : State} (hs : s.Bare) (hm : Adds ok m)
    (hf : ∀ a s', s'.Bare → m.run s = some (a, s') → s.arena.Extends ok s'.arena →
      AddsFrom ok s' (f a)) : AddsFrom ok s (m >>= f) := by
  intro r s'' hr
  obtain ⟨a, s', hr, hr'⟩ := run_bind_eq_some hr
  obtain ⟨hl, ha⟩ := hm s hs a s' hr
  obtain ⟨hl', ha'⟩ := hf a s' (hs.later hl) hr ha r s'' hr'
  exact ⟨hl.trans hl', ha.trans ha'⟩

theorem Adds.bind (hm : Adds ok m) (hf : ∀ a, Adds ok (f a)) : Adds ok (m >>= f) :=
  fun _ hs => hm.bindFrom hs fun a s' hs' _ _ => hf a s' hs'

theorem Looks.adds {g : State → α} (hm : Looks m g) : Adds ok m := by
  intro s _ r s' hr
  rw [hm s] at hr
  cases hr
  exact ⟨Later.refl s, .refl⟩

/-- The rule goes on after something that adds nothing. -/
theorem Adds.look {g : State → α} (hm : Looks m g) (hf : ∀ a, Adds ok (f a)) :
    Adds ok (m >>= f) :=
  hm.adds.bind hf

/-! ## What every rule is made of -/

theorem adds_outOfSteps : Adds ok (outOfSteps : Parse α) := by
  intro s _ r s' hr
  rw [run_outOfSteps] at hr
  cases hr

theorem adds_modify {g : State → State}
    (h : ∀ s, (g s).stream.tokens <:+ s.stream.tokens ∧ (g s).arena = s.arena) :
    Adds ok (modify g : Parse PUnit) := by
  intro s _ r s' hr
  cases hr
  obtain ⟨hl, ha⟩ := h s
  exact ⟨hl, ha ▸ .refl⟩

theorem adds_advance : Adds ok advance := adds_modify fun s => ⟨s.stream.tokens_next_suffix, rfl⟩

theorem adds_report {fault : SyntaxFault} : Adds ok (report fault) := by
  intro s _ r s' hr
  obtain ⟨_, _, rfl⟩ := exists_of_report hr
  exact ⟨List.suffix_rfl, .refl⟩

theorem adds_takeDoc : Adds ok takeDoc := by
  intro s _ r s' hr
  cases hr
  exact ⟨List.suffix_rfl, .refl⟩

/-- Rules that only pass over tokens add nothing. -/
theorem adds_inherited : Inherited fun _ m => Adds ok m where
  pure _ := .pure
  bind := .bind
  look := Looks.adds
  outOfSteps := adds_outOfSteps
  advance := adds_advance
  report _ := adds_report

variable {payload : Payload (Option NodeId)} {start : Nat}

theorem addsFrom_done {s : State} (h : ok s.arena payload) :
    AddsFrom ok s (done payload start) := by
  intro r s' hr
  cases hr
  exact ⟨Later.refl s, .single ⟨payload, start, _, h, rfl⟩⟩

theorem adds_done (h : ∀ a, ok a payload) : Adds ok (done payload start) :=
  fun s _ => addsFrom_done (h s.arena)

theorem adds_node (h : ∀ a, ok a payload) : Adds ok (node payload start) :=
  fun s hs _ _ hr => by
    cases hr
    exact adds_done h s hs _ _ rfl

/-- Rules add what is allowed if every simple construct is. -/
theorem adds_composed
    (h : ∀ {payload : Payload (Option NodeId)}, payload.isSimple = true → ∀ a, ok a payload) :
    Composed fun _ m => Adds ok m where
  __ := adds_inherited
  takeDoc := adds_takeDoc
  node hp := adds_node (h (Payload.isSimple_of_isElementary hp))
  property _ _ := adds_node (h rfl)

theorem Adds.nested {recover : Parse Unit} {rule : Parse (Option NodeId)} (hr : Adds ok recover)
    (h : Adds ok rule) : Adds ok (nested recover rule) :=
  adds_inherited.nested (fun _ => adds_modify fun _ => ⟨List.suffix_rfl, rfl⟩) adds_report hr h

/-- Rules that add what is allowed make trees of what is allowed. -/
theorem allowed_ofSource {source : List Char} {i : NodeId}
    (h : ∀ {payload : Payload (Option NodeId)}, payload.isSimple = true → ∀ a, ok a payload)
    (hs : ∀ n, Adds ok (rules n .statement))
    (hi : (Parsed.ofSource source).arena.payload? i = some payload) :
    ∃ c, ok c payload ∧ c.Extends ok (Parsed.ofSource source).arena := by
  have hfile (n : Nat) : Adds ok (sourceFile n) := by
    have hend : Adds ok
        (modify fun s => { s with readTo := s.stream.current.stop } : Parse PUnit) :=
      adds_modify fun _ => ⟨List.suffix_rfl, rfl⟩
    refine adds_advance.bind fun _ => ((adds_composed h).statementList (hs n)).bind fun _ => ?_
    exact hend.bind fun _ => adds_node (h rfl)
  unfold Parsed.ofSource at hi ⊢
  split at hi
  · next hr =>
    have he := (hfile _ _ (bare_before source) _ _ hr).2
    exact (he.payload?_cases hi).resolve_left nofun
  · cases hi

/-! ## Expressions -/

/-- A construct that declares neither a class-like nor a function. -/
def Plain (_ : Arena) (payload : Payload (Option NodeId)) : Prop :=
  payload.isClassLike = false ∧ payload.isFunction = false

/-- The rules of expressions that a rule is run with add no declarations. -/
structure AddsPlain (rules : Rules) : Prop where
  expression : Adds Plain (rules .expression)
  operand : ∀ level, Adds Plain (rules (.operand level))
  unary : Adds Plain (rules .unary)
  primary : Adds Plain (rules .primary)

theorem plain_of_isOperation (h : payload.isOperation = true) (a : Arena) : Plain a payload := by
  cases payload <;> first | exact ⟨rfl, rfl⟩ | cases h

theorem plain_of_isSimple (h : payload.isSimple = true) (a : Arena) : Plain a payload := by
  cases payload <;> first | exact ⟨rfl, rfl⟩ | cases h

theorem composed_addsPlain : Composed fun _ m => Adds Plain m := adds_composed plain_of_isSimple

theorem AddsPlain.ofExpressions {self : Rules} (h : AddsPlain self) :
    OfExpressions (fun _ m => Adds Plain m) self where
  expression := h.expression
  operand := h.operand
  unary := h.unary
  primary := h.primary
  parentheses _ :=
    composed_addsPlain.parentheses h.expression fun _ => adds_done fun _ => ⟨rfl, rfl⟩

end Grammar

end PhpAtlas
