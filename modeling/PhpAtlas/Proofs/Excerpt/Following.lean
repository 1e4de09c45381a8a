import PhpAtlas.Proofs.Brackets.Rules

/-! # Runs in step

A second run of the grammar follows a first one where it stands at the same tokens
and has the same nodes, up to the places of tokens and the numbers of nodes. How
the states of the two runs are related is left open: the rules need no more of the
relation than what a single step does to it.
-/

namespace PhpAtlas

/-- What stands behind a conjunct counts only where that holds. -/
theorem and_congr_behind {b c c' : Bool} (h : b = true → c' = c) : (b && c') = (b && c) := by
  cases b with
  | false => rfl
  | true => rw [h rfl]

/-- Behind such a token more of the same block stands. -/
def TokenKind.Inner (kind : TokenKind) : Prop := kind ≠ .closeBrace ∧ kind ≠ .endOfFile

namespace Grammar

/-- The state with one node more, which starts at `start`. -/
def State.noded (s : State) (payload : Payload (Option NodeId)) (start : Nat) : State :=
  { s with arena := (s.arena.add payload start (max s.readTo start)).2 }

/-- Where the places of one run and the nodes of its tree are in another run. -/
structure Relocation where
  place : Nat → Nat
  number : NodeId → NodeId

namespace Relocation

variable (L : Relocation)

def token (t : Token) : Token := { t with start := L.place t.start, stop := L.place t.stop }

def ids : Option NodeId → Option NodeId := Option.map L.number

end Relocation

/-- What a relation between the states of two runs has to do with single steps. What the first run
does after it has left `Kept` is of no interest. -/
structure Pairing extends Relocation where
  Kept : State → Prop
  Rel : State → State → Prop
  kept_next {s : State} : Kept s.next → Kept s
  not_kept_report {s s' : State} {fault : SyntaxFault} :
    (report fault).run s = some ((), s') → ¬Kept s'
  kept_of_eq {s s' : State} : Kept s' → s'.stream.tokens = s.stream.tokens →
    s'.diagnostics = s.diagnostics → s'.lastFault = s.lastFault → Kept s
  current {s r : State} : Rel s r → r.stream.current = toRelocation.token s.stream.current
  ahead {s r : State} : Rel s r → s.stream.current.kind.Inner →
    r.stream.peek 1 = toRelocation.token (s.stream.peek 1)
  further {s r : State} : Rel s r → s.stream.current.kind.Inner → (s.stream.peek 1).kind.Inner →
    r.stream.peek 2 = toRelocation.token (s.stream.peek 2)
  place_inj {s s' r r' : State} : Rel s r → Rel s' r' →
    place s'.stream.current.start = place s.stream.current.start →
    s'.stream.current.start = s.stream.current.start
  next {s r : State} : Rel s r → Kept s.next → Rel s.next r.next
  size {s r : State} : Rel s r → r.arena.size = number s.arena.size
  noded {s r : State} (payload : Payload (Option NodeId)) (start : Nat) : Rel s r →
    Rel (s.noded payload start) (r.noded (payload.map toRelocation.ids) (place start))
  doc {s r : State} : Rel s r → r.stream.doc = s.stream.doc
  dropDoc {s r : State} : Rel s r → Rel { s with stream := s.stream.dropDoc }
    { r with stream := r.stream.dropDoc }
  depth_le {s r : State} : Rel s r → r.depth ≤ s.depth
  deepened {s r : State} {d e : Nat} : Rel s r → e ≤ d → Rel { s with depth := d }
    { r with depth := e }

variable {α β γ δ : Type} {t : Token} {kind : TokenKind} {s s' : State}
variable {m : Parse α} {m' : Parse β} {f : α → Parse γ} {f' : β → Parse δ}

namespace Pairing

variable (L : Pairing)

/-- What is kept after the rule has been kept before. -/
def Keeps (m : Parse α) : Prop := ∀ s a s', m.run s = some (a, s') → L.Kept s' → L.Kept s

/-- From a state at the token, the second rule does what the first one does, with its result sent
through `φ`. -/
def FollowsAt (t : Token) (m : Parse α) (φ : α → β) (m' : Parse β) : Prop :=
  ∀ s a s', s.stream.current = t → m.run s = some (a, s') → L.Kept s' →
    L.Kept s ∧ ∀ r b r', L.Rel s r → m'.run r = some (b, r') → b = φ a ∧ L.Rel s' r'

/-- The same at any token. -/
def Follows (m : Parse α) (φ : α → β) (m' : Parse β) : Prop := ∀ t, L.FollowsAt t m φ m'

/-- A token that both runs have stood at. -/
def Seen (t : Token) : Prop := ∃ s r, L.Rel s r ∧ s.stream.current = t

variable {L} {φ : α → β} {ψ : γ → δ}

theorem Keeps.bind (hm : L.Keeps m) (hf : ∀ a, L.Keeps (f a)) : L.Keeps (m >>= f) := by
  intro s a s' hr hk
  obtain ⟨b, s₁, h₁, h₂⟩ := run_bind_eq_some hr
  exact hm s b s₁ h₁ (hf b s₁ a s' h₂ hk)

theorem Follows.keeps (h : L.Follows m φ m') : L.Keeps m :=
  fun s a s' hr hk => (h _ s a s' rfl hr hk).1

theorem FollowsAt.pure {a : α} : L.FollowsAt t (Pure.pure a) φ (Pure.pure (φ a)) := by
  intro s b s' _ hr hk
  cases hr
  refine ⟨hk, fun r b r' hrel hr' => ?_⟩
  cases hr'
  exact ⟨rfl, hrel⟩

theorem Follows.pure {a : α} : L.Follows (Pure.pure a) φ (Pure.pure (φ a)) := fun _ => .pure

theorem Follows.pure_of_eq {a : α} {b : β} (h : b = φ a) : L.Follows (Pure.pure a) φ (Pure.pure b) :=
  h ▸ .pure

theorem FollowsAt.bind (hm : L.FollowsAt t m φ m') (hf : ∀ a, L.Follows (f a) ψ (f' (φ a))) :
    L.FollowsAt t (m >>= f) ψ (m' >>= f') := by
  intro s c s'' ht hr hk
  obtain ⟨a, s₁, h₁, h₂⟩ := run_bind_eq_some hr
  obtain ⟨hk₁, hrel₁⟩ := hf a _ s₁ c s'' rfl h₂ hk
  obtain ⟨hk, hrel⟩ := hm s a s₁ ht h₁ hk₁
  refine ⟨hk, fun r d r'' hs hr' => ?_⟩
  obtain ⟨b, r₁, h₁, h₂⟩ := run_bind_eq_some hr'
  obtain ⟨rfl, hs₁⟩ := hrel r b r₁ hs h₁
  exact hrel₁ r₁ d r'' hs₁ h₂

theorem Follows.bind (hm : L.Follows m φ m') (hf : ∀ a, L.Follows (f a) ψ (f' (φ a))) :
    L.Follows (m >>= f) ψ (m' >>= f') :=
  fun t => (hm t).bind hf

theorem FollowsAt.map {g : α → γ} {g' : β → δ} (hm : L.FollowsAt t m φ m')
    (hg : ∀ a, g' (φ a) = ψ (g a)) : L.FollowsAt t (g <$> m) ψ (g' <$> m') := by
  rw [← bind_pure_comp, ← bind_pure_comp]
  refine hm.bind fun a => ?_
  rw [hg]
  exact .pure

theorem Follows.map {g : α → γ} {g' : β → δ} (hm : L.Follows m φ m')
    (hg : ∀ a, g' (φ a) = ψ (g a)) : L.Follows (g <$> m) ψ (g' <$> m') :=
  fun t => (hm t).map hg

theorem Follows.discard (hm : L.Follows m φ m') :
    L.Follows (Functor.discard m) id (Functor.discard m') :=
  hm.map fun _ => rfl

theorem FollowsAt.ite {c : Prop} [Decidable c] {m₁ m₂ : Parse α} {m₁' m₂' : Parse β}
    (h₁ : c → L.FollowsAt t m₁ φ m₁') (h₂ : ¬c → L.FollowsAt t m₂ φ m₂') :
    L.FollowsAt t (if c then m₁ else m₂) φ (if c then m₁' else m₂') := by
  by_cases hc : c
  · rw [if_pos hc, if_pos hc]
    exact h₁ hc
  · rw [if_neg hc, if_neg hc]
    exact h₂ hc

theorem Follows.ite {c : Prop} [Decidable c] {m₁ m₂ : Parse α} {m₁' m₂' : Parse β}
    (h₁ : c → L.Follows m₁ φ m₁') (h₂ : ¬c → L.Follows m₂ φ m₂') :
    L.Follows (if c then m₁ else m₂) φ (if c then m₁' else m₂') :=
  fun t => .ite (fun hc => h₁ hc t) fun hc => h₂ hc t

theorem FollowsAt.ite_of_eq {c c' : Bool} {m₁ m₂ : Parse α} {m₁' m₂' : Parse β} (hc : c' = c)
    (h₁ : c = true → L.FollowsAt t m₁ φ m₁') (h₂ : c = false → L.FollowsAt t m₂ φ m₂') :
    L.FollowsAt t (if c then m₁ else m₂) φ (if c' then m₁' else m₂') := by
  subst hc
  exact .ite h₁ fun h => h₂ (by simpa using h)

/-- A rule that runs out of steps is not to be followed. -/
theorem follows_outOfSteps : L.Follows (outOfSteps : Parse α) φ m' := fun _ _ _ _ _ hr => nomatch hr

/-- Nor does a rule follow that runs out of them. -/
theorem Keeps.follows (hm : L.Keeps m) : L.Follows m φ (outOfSteps : Parse β) :=
  fun _ s a s' _ hr hk => ⟨hm s a s' hr hk, fun _ _ _ _ hr' => nomatch hr'⟩

/-! ## Looking -/

theorem FollowsAt.look {m : Parse α} {g : State → α} {f : α → Parse γ} {f' : α → Parse δ}
    (hm : Looks m g) (hg : ∀ s r, L.Rel s r → s.stream.current = t → g r = g s)
    (h : ∀ s, s.stream.current = t → L.FollowsAt t (f (g s)) ψ (f' (g s))) :
    L.FollowsAt t (m >>= f) ψ (m >>= f') := by
  intro s a s' ht hr hk
  rw [hm.run_bind] at hr
  obtain ⟨hk, hrel⟩ := h s ht s a s' ht hr hk
  refine ⟨hk, fun r b r' hs hr' => ?_⟩
  rw [hm.run_bind, hg s r hs ht] at hr'
  exact hrel r b r' hs hr'

theorem FollowsAt.token {f : Token → Parse γ} {f' : Token → Parse δ}
    (h : L.FollowsAt t (f t) ψ (f' (L.token t))) :
    L.FollowsAt t (token >>= f) ψ (token >>= f') := by
  intro s a s' ht hr hk
  rw [looks_token.run_bind, ht] at hr
  obtain ⟨hk, hrel⟩ := h s a s' ht hr hk
  refine ⟨hk, fun r b r' hs hr' => ?_⟩
  rw [looks_token.run_bind, L.current hs, ht] at hr'
  exact hrel r b r' hs hr'

theorem FollowsAt.isAt {f : Bool → Parse γ} {f' : Bool → Parse δ}
    (h : L.FollowsAt t (f (t.kind == kind)) ψ (f' (t.kind == kind))) :
    L.FollowsAt t (isAt kind >>= f) ψ (isAt kind >>= f') := by
  refine .look (looks_isAt kind) (fun s r hs ht => ?_) fun s ht => ?_
  · rw [L.current hs]
    rfl
  · rwa [ht]

theorem FollowsAt.isAtWord {word : String} {f : Bool → Parse γ} {f' : Bool → Parse δ}
    (h : L.FollowsAt t (f (t.isWord word)) ψ (f' (t.isWord word))) :
    L.FollowsAt t (isAtWord word >>= f) ψ (isAtWord word >>= f') := by
  refine .look (looks_isAtWord word) (fun s r hs ht => ?_) fun s ht => ?_
  · rw [L.current hs]
    rfl
  · rwa [ht]

theorem FollowsAt.isAtEndOr {f : Bool → Parse γ} {f' : Bool → Parse δ}
    (h : L.FollowsAt t (f (t.kind == kind || t.kind == .endOfFile)) ψ
      (f' (t.kind == kind || t.kind == .endOfFile))) :
    L.FollowsAt t (isAtEndOr kind >>= f) ψ (isAtEndOr kind >>= f') := by
  refine .look (looks_isAtEndOr kind) (fun s r hs ht => ?_) fun s ht => ?_
  · rw [L.current hs]
    rfl
  · rwa [ht]

/-- The kind of the next token is the same within a block. -/
theorem FollowsAt.kindAhead {f : TokenKind → Parse γ} {f' : TokenKind → Parse δ}
    (h : ∀ k k', (t.kind.Inner → k' = k) → L.FollowsAt t (f k) ψ (f' k')) :
    L.FollowsAt t (kindAhead 1 >>= f) ψ (kindAhead 1 >>= f') := by
  intro s a s' ht hr hk
  rw [(looks_kindAhead 1).run_bind] at hr
  refine ⟨(h _ _ (fun _ => rfl) s a s' ht hr hk).1, fun r b r' hs hr' => ?_⟩
  rw [(looks_kindAhead 1).run_bind] at hr'
  refine (h _ _ (fun hi => ?_) s a s' ht hr hk).2 r b r' hs hr'
  rw [L.ahead hs (ht ▸ hi)]
  rfl

/-! ## Steps -/

theorem follows_advance : L.Follows advance id advance := by
  intro t s a s' _ hr hk
  cases hr
  refine ⟨L.kept_next hk, fun r b r' hs hr' => ?_⟩
  cases hr'
  exact ⟨rfl, L.next hs hk⟩

theorem follows_report {fault : SyntaxFault} : L.Follows (report fault) id (report fault) :=
  fun _ _ _ _ _ hr hk => absurd hk (L.not_kept_report hr)

theorem follows_takeDoc : L.Follows takeDoc id takeDoc := by
  intro t s a s' _ hr hk
  cases hr
  refine ⟨L.kept_of_eq hk rfl rfl rfl, fun r b r' hs hr' => ?_⟩
  cases hr'
  exact ⟨L.doc hs, L.dropDoc hs⟩

variable {payload : Payload (Option NodeId)} {start : Nat} {spelling part : String}

theorem follows_node :
    L.Follows (node payload start) L.number (node (payload.map L.ids) (L.place start)) := by
  intro t s a s' _ hr hk
  cases hr
  refine ⟨L.kept_of_eq hk rfl rfl rfl, fun r b r' hs hr' => ?_⟩
  cases hr'
  exact ⟨L.size hs, L.noded payload start hs⟩

theorem follows_done :
    L.Follows (done payload start) L.ids (done (payload.map L.ids) (L.place start)) :=
  follows_node.bind fun _ => .pure

theorem follows_fail : L.Follows (fail part) L.ids (fail part) :=
  follows_report.bind fun _ => .pure

theorem follows_accept : L.Follows (accept kind) id (accept kind) :=
  fun t => .isAt (.ite (fun _ => (follows_advance t).bind fun _ => .pure) fun _ => .pure)

theorem follows_expect : L.Follows (expect kind spelling) id (expect kind spelling) := by
  refine follows_accept.bind fun b => .ite (fun _ => .pure) fun _ => ?_
  exact follows_report.bind fun _ => .pure

theorem follows_expectSemicolon : L.Follows expectSemicolon id expectSemicolon := by
  refine follows_accept.bind fun b => .ite (fun _ => .pure) fun _ t => ?_
  exact .isAt (.ite (fun _ => .pure) fun _ => follows_report _)

/-- Nesting is no deeper in the second run. -/
theorem Follows.nested {m m' : Parse (Option NodeId)} {recover : Parse Unit}
    (hrec : L.Keeps recover) (hm : L.Follows m L.ids m') :
    L.Follows (nested recover m) L.ids (nested recover m') := by
  intro t s a s' _ hr hk
  rcases run_nested_eq_some hr with ⟨-, s₁, s₂, h₁, h₂, rfl⟩ | ⟨s₁, hd, h₁, rfl⟩
  · have hk₁ : L.Kept s₁ := L.kept_of_eq (hrec _ _ _ h₂ hk) rfl rfl rfl
    exact absurd hk₁ (L.not_kept_report h₁)
  · obtain ⟨hk, hrel⟩ := hm _ _ a s₁ rfl h₁ (L.kept_of_eq hk rfl rfl rfl)
    refine ⟨L.kept_of_eq hk rfl rfl rfl, fun r b r' hs hr' => ?_⟩
    have hle := L.depth_le hs
    rcases run_nested_eq_some hr' with ⟨hd', -⟩ | ⟨r₁, -, h₂, rfl⟩
    · omega
    · obtain ⟨hb, hs₁⟩ := hrel _ b r₁ (L.deepened hs (Nat.succ_le_succ hle)) h₂
      exact ⟨hb, L.deepened hs₁ (Nat.sub_le_sub_right (L.depth_le hs₁) 1)⟩

/-- Passing over tokens brings back nothing that has been left. -/
theorem inherited_keeps : Inherited fun _ m => L.Keeps m where
  pure _ := fun _ _ _ hr hk => by
    cases hr
    exact hk
  bind := .bind
  look hm := fun s _ _ hr hk => by
    rw [hm s] at hr
    cases hr
    exact hk
  outOfSteps := fun _ _ _ hr => nomatch hr
  advance := follows_advance.keeps
  report _ := follows_report.keeps

/-- From a token on that both runs have stood at. -/
theorem FollowsAt.seen (hm : L.Keeps m) (h : L.Seen t → L.FollowsAt t m φ m') :
    L.FollowsAt t m φ m' :=
  fun s a s' ht hr hk => ⟨hm s a s' hr hk, fun r b r' hs hr' =>
    (h ⟨s, r, hs, ht⟩ s a s' ht hr hk).2 r b r' hs hr'⟩

/-! ## Loops -/

/-- A loop is followed by one that has another number of steps, if one turn is. -/
theorem follows_loop {ι : Type} (M : ι → Nat → Parse α) (M' : ι → Nat → Parse β)
    (h₀ : ∀ i, M i 0 = outOfSteps) (h₀' : ∀ i, M' i 0 = outOfSteps)
    (hs : ∀ n n', (∀ i, L.Follows (M i n) φ (M' i n')) →
      ∀ i, L.Follows (M i (n + 1)) φ (M' i (n' + 1))) (i : ι) (n n' : Nat) :
    L.Follows (M i n) φ (M' i n') := by
  induction n generalizing i n' with
  | zero =>
    rw [h₀]
    exact follows_outOfSteps
  | succ n ih =>
    cases n' with
    | zero =>
      rw [h₀']
      exact Keeps.follows (hs n 0 (fun i => ih i 0) i).keeps
    | succ n' => exact hs n n' (fun i => ih i n') i

/-- A run on its own up to some tokens: nothing is in step with it. -/
def alone (ts : List Token) : Pairing where
  place := id
  number := id
  Kept s := s.Clean ∧ ts <:+ s.stream.tokens
  Rel _ _ := False
  kept_next h := ⟨h.1, h.2.trans (TokenStream.tokens_next_suffix _)⟩
  not_kept_report hr h := not_clean_report hr h.1
  kept_of_eq h ht hd hl := ⟨⟨hd ▸ h.1.1, hl ▸ h.1.2⟩, ht ▸ h.2⟩
  current := False.elim
  ahead := False.elim
  further := False.elim
  place_inj := False.elim
  next := False.elim
  size := False.elim
  noded _ _ := False.elim
  doc := False.elim
  dropDoc := False.elim
  depth_le := False.elim
  deepened := False.elim

/-- The rule reads on and takes back no report. -/
theorem later_of_keeps {a : α} (hm : ∀ ts, (alone ts).Keeps m) (hr : m.run s = some (a, s'))
    (hc : s'.Clean) : s.Clean ∧ Later s s' :=
  hm s'.stream.tokens s a s' hr ⟨hc, List.suffix_rfl⟩

end Pairing

end Grammar

namespace TokenKind

variable {kind : TokenKind}

theorem inner_of_isMemberName (h : kind.isMemberName = true) : kind.Inner := by
  constructor <;> rintro rfl <;> cases h

theorem inner_of_isWord {t : Token} {word : String} (h : t.isWord word = true) : t.kind.Inner := by
  rw [eq_of_beq (Bool.and_eq_true_iff.mp h).1]
  exact ⟨nofun, nofun⟩

theorem inner_keyword {k : Keyword} : (keyword k).Inner := ⟨nofun, nofun⟩

theorem inner_ampersand : ampersand.Inner := ⟨nofun, nofun⟩

theorem inner_ellipsis : ellipsis.Inner := ⟨nofun, nofun⟩

theorem inner_openParen : openParen.Inner := ⟨nofun, nofun⟩

theorem inner_identifier : identifier.Inner := ⟨nofun, nofun⟩

end TokenKind

end PhpAtlas
