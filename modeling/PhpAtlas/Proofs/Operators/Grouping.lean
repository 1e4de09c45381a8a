import PhpAtlas.Proofs.Operators.Reading

/-! # How operators group

What is said of the node of an operator and of an assignment depends on what is under it
alone. So it holds from the state on in which the node is added, and rules only
have to be asked about the operators that they add themselves.
-/

namespace PhpAtlas

open Grammar (groupsToRight)

variable {ts us : List Token} {i l r : NodeId} {level : Nat} {operator : String}

/-! ## Levels -/

namespace Grammar

/-- Operators of one level group to the same side. -/
theorem groupsToRight_iff (h : level? operator = some level) :
    groupsToRight operator = true ↔ level = 5 ∨ level = 19 := by
  unfold level? at h
  split at h
  all_goals first
    | cases h; decide
    | cases h

/-- The only operator above `instanceof`. -/
theorem eq_of_level?_of_lt (h : level? operator = some level) (hl : 18 < level) :
    operator = "**" := by
  unfold level? at h
  split at h
  all_goals first
    | rfl
    | (cases h; omega)
    | cases h

theorem level?_instanceof : level? "instanceof" = some 18 := rfl

theorem level?_of_mem_updateOperators (h : operator ∈ updateOperators) : level? operator = none := by
  revert operator
  decide

end Grammar

/-! ## Trees of operators -/

/-- What a binary operator stands between. -/
def Payload.binary? {α : Type} : Payload α → Option (α × String × α)
  | .binary left operator right => some (left, operator, right)
  | _ => none

namespace Arena

variable {a b : Arena}

/-- The node is that of a binary operator with the level. -/
def Operates (a : Arena) (i : NodeId) (operator : String) (level : Nat) : Prop :=
  ∃ left right, a.payload? i = some (.binary left operator right) ∧
    Grammar.level? operator = some level

theorem payload?_of_binary? {left right : Option NodeId}
    (h : (a.payload? i).bind Payload.binary? = some (left, operator, right)) :
    a.payload? i = some (.binary left operator right) := by
  obtain ⟨p, hp, hb⟩ := Option.bind_eq_some_iff.mp h
  unfold Payload.binary? at hb
  split at hb
  · cases hb
    exact hp
  · cases hb

theorem PrefixOf.operates_iff (h : a.PrefixOf b) (hi : i < a.size) :
    b.Operates i operator level ↔ a.Operates i operator level := by
  simp only [Operates, h.payload i hi]

/-- The operands are read to the left and to the right of the operator. An operand that is one of a
binary operator itself binds tighter, or as tight on the side to which the operator groups; on the left
it may also be that of `instanceof` in front of `**`. -/
structure Grouped (ts : List Token) (a : Arena) (i l r : NodeId) (operator : String) (level : Nat) :
    Prop where
  reads : ∃ s xs t ys, a.span? i = some s ∧ s.tokens ts = xs ++ t :: ys ∧
    Grammar.binaryOperator? t = some (operator, level) ∧ a.Reads ts l xs ∧ a.Reads ts r ys
  left : ∀ q own, a.Operates l q own → level < own ∨ level = own ∧ groupsToRight operator = false ∨
    q = "instanceof" ∧ operator = "**"
  right : ∀ q own, a.Operates r q own → level < own ∨ level = own ∧ groupsToRight operator = true
  /-- Behind `instanceof` there is a class, never another operator. -/
  classRef : operator = "instanceof" → ∀ left q right, a.payload? r ≠ some (.binary left q right)

theorem Grouped.mono (h : a.Grouped ts i l r operator level) (hb : a.PrefixOf b) :
    b.Grouped ts i l r operator level := by
  obtain ⟨s, xs, t, ys, hs, htokens, ht, hl, hr⟩ := h.reads
  constructor
  · exact ⟨s, xs, t, ys, hb.span?_eq_some hs, htokens, ht, hl.mono hb, hr.mono hb⟩
  · intro q own hq
    exact h.left q own ((hb.operates_iff hl.lt_size).mp hq)
  · intro q own hq
    exact h.right q own ((hb.operates_iff hr.lt_size).mp hq)
  · rw [hb.payload r hr.lt_size]
    exact h.classRef

/-- What is read up to the equals sign is the target. -/
def Assigns (ts : List Token) (a : Arena) (i target : NodeId) : Prop :=
  ∃ s xs eq ys, a.span? i = some s ∧ s.tokens ts = xs ++ eq :: ys ∧ eq.kind = .equals ∧
    a.Reads ts target xs

theorem Assigns.mono (h : a.Assigns ts i l) (hb : a.PrefixOf b) : b.Assigns ts i l := by
  obtain ⟨s, xs, eq, ys, hs, htokens, heq, ht⟩ := h
  exact ⟨s, xs, eq, ys, hb.span?_eq_some hs, htokens, heq, ht.mono hb⟩

end Arena

namespace Grammar

variable {α β : Type} {s s' s₁ : State} {m : Parse α} {f : α → Parse β} {start : Nat}
variable {payload : Payload (Option NodeId)}

/-- The operator groups as its level says, and so does an assignment if nothing has been reported. -/
def Settled (ts : List Token) (s : State) (i : NodeId) : Payload (Option NodeId) → Prop
  | .binary left operator right => ∀ level, level? operator = some level →
      ∃ l r, left = some l ∧ right = some r ∧ s.arena.Grouped ts i l r operator level
  | .assign target _ _ => s.Clean → ∃ t, target = some t ∧ s.arena.Assigns ts i t
  | _ => True

theorem Settled.mono (h : Settled ts s i payload) (ha : s.arena.PrefixOf s'.arena)
    (hc : s'.Clean → s.Clean) : Settled ts s' i payload := by
  unfold Settled at h ⊢
  split
  · intro level hlevel
    obtain ⟨l, r, hl, hr, hg⟩ := h level hlevel
    exact ⟨l, r, hl, hr, hg.mono ha⟩
  · intro hclean
    obtain ⟨t, ht, hassigns⟩ := h (hc hclean)
    exact ⟨t, ht, hassigns.mono ha⟩
  · trivial

theorem settled_of_isOperation (h : payload.isOperation = false) : Settled ts s i payload := by
  cases payload <;> trivial

/-- Between the states tokens are read and nodes added, and all operators that are added group. -/
structure Passed (ts : List Token) (s s' : State) : Prop where
  on : s'.On ts
  later : Later s s'
  kept : s.arena.PrefixOf s'.arena
  clean : s'.Clean → s.Clean
  operations : ∀ i payload, s.arena.size ≤ i → s'.arena.payload? i = some payload →
    Settled ts s' i payload

theorem Passed.of_eq (hs : s'.On ts) (hl : Later s s') (hc : s'.Clean → s.Clean)
    (ha : s'.arena = s.arena) : Passed ts s s' where
  on := hs
  later := hl
  kept := ha ▸ .refl _
  clean := hc
  operations _ _ hi hp := absurd (Arena.lt_size_of_payload? (ha ▸ hp)) (not_lt.mpr hi)

theorem Passed.refl (h : s.On ts) : Passed ts s s := .of_eq h (Later.refl s) id rfl

theorem Passed.trans (h : Passed ts s s₁) (h' : Passed ts s₁ s') : Passed ts s s' where
  on := h'.on
  later := h.later.trans h'.later
  kept := h.kept.trans h'.kept
  clean hc := h.clean (h'.clean hc)
  operations i payload hi hp := by
    rcases Nat.lt_or_ge i s₁.arena.size with hlt | hge
    · rw [h'.kept.payload i hlt] at hp
      exact (h.operations i payload hi hp).mono h'.kept h'.clean
    · exact h'.operations i payload hge hp

theorem Passed.next (h : s.On ts) : Passed ts s s.next :=
  .of_eq h.next s.stream.tokens_next_suffix id rfl

/-- A node is added of which it is known that it groups. -/
theorem Passed.noded (h : s.On ts)
    (hn : Settled ts (s.noded payload start) s.arena.size payload) :
    Passed ts s (s.noded payload start) where
  on := h.of_eq rfl rfl
  later := Later.refl s
  kept := Arena.prefixOf_added
  clean := id
  operations i p hi hp := by
    rw [State.payload?_noded] at hp
    split at hp
    · next he =>
      cases hp
      exact he ▸ hn
    · exact absurd (Arena.lt_size_of_payload? hp) (not_lt.mpr hi)

/-- The rule does so from every state on the tokens. -/
def Passes (ts : List Token) (m : Parse α) : Prop :=
  ∀ s a s', s.On ts → m.run s = some (a, s') → Passed ts s s'

theorem passes_of_eq (h : ∀ s a s', s.On ts → m.run s = some (a, s') →
    s'.On ts ∧ Later s s' ∧ (s'.Clean → s.Clean) ∧ s'.arena = s.arena) : Passes ts m := by
  intro s a s' hs hr
  obtain ⟨hon, hl, hc, ha⟩ := h s a s' hs hr
  exact .of_eq hon hl hc ha

theorem passes_report {fault : SyntaxFault} : Passes ts (report fault) :=
  passes_of_eq fun s _ s' hs hr => by
    have hreported : ¬s'.Clean := not_clean_report hr
    obtain ⟨_, _, rfl⟩ := exists_of_report hr
    exact ⟨hs.of_eq rfl rfl, .of_eq rfl, fun hc => absurd hc hreported, rfl⟩

theorem inherited_passes (ts : List Token) : Inherited fun _ m => Passes ts m where
  pure _ := passes_of_eq fun s _ _ hs hr => by cases hr; exact ⟨hs, Later.refl s, id, rfl⟩
  bind hm hf := by
    intro s b s'' hs hr
    obtain ⟨a, s', hr, hr'⟩ := run_bind_eq_some hr
    have hp := hm s a s' hs hr
    exact hp.trans (hf a s' b s'' hp.on hr')
  look hm := passes_of_eq fun s _ _ hs hr => by
    rw [hm s] at hr
    cases hr
    exact ⟨hs, Later.refl s, id, rfl⟩
  outOfSteps := fun _ _ _ _ hr => nomatch hr
  advance := fun s _ _ hs hr => by
    cases hr
    exact .next hs
  report _ := passes_report

theorem passes_node (h : payload.isOperation = false) : Passes ts (node payload start) := by
  intro s a s' hs hr
  obtain rfl : s' = s.noded payload start := by cases hr; rfl
  exact .noded hs (settled_of_isOperation h)

theorem passes_done (h : payload.isOperation = false) : Passes ts (done payload start) :=
  (inherited_passes ts).bind (passes_node h) fun _ => (inherited_passes ts).pure _

theorem composed_passes (ts : List Token) : Composed fun _ m => Passes ts m where
  __ := inherited_passes ts
  takeDoc := passes_of_eq fun s _ _ hs hr => by
    cases hr
    exact ⟨hs.of_eq rfl rfl, .of_eq rfl, id, rfl⟩
  node {payload _} h := passes_node (by cases payload <;> first | rfl | cases h)
  property _ _ := passes_node rfl

theorem passes_depth (d : Nat → Nat) :
    Passes ts (modify fun s => { s with depth := d s.depth } : Parse PUnit) :=
  passes_of_eq fun s _ _ hs hr => by
    cases hr
    exact ⟨hs.of_eq rfl rfl, .of_eq rfl, id, rfl⟩

theorem Passes.nested {recover : Parse Unit} {rule : Parse (Option NodeId)}
    (hrecover : Passes ts recover) (h : Passes ts rule) : Passes ts (nested recover rule) :=
  (inherited_passes ts).nested passes_depth passes_report hrecover h

end Grammar

end PhpAtlas
