import PhpAtlas.Proofs.Composing
import PhpAtlas.Proofs.Reading.Fits
import PhpAtlas.Proofs.Tree.Forest

/-! # Rules and waiting comments

A documentation comment waits in the stream until a declaration takes it. A rule
for expressions takes none, so the comment of the current token waits whenever
such a rule has read a token. A declaration takes the comment at its first token
and then reads that token, so that no declaration after it finds a comment taken
away.
-/

namespace PhpAtlas

/-- The comment of a construct that can have one. -/
def Payload.doc? {α : Type} : Payload α → Option (Option String)
  | classLike _ d => some d.doc
  | function _ d => some d.doc
  | property d => some d.doc
  | _ => none

theorem Payload.doc?_of_isElementary {α : Type} {payload : Payload α}
    (h : payload.isElementary = true) : payload.doc? = none := by
  cases payload <;> first | rfl | cases h

theorem Payload.doc?_of_isOperation {α : Type} {payload : Payload α}
    (h : payload.isOperation = true) : payload.doc? = none := by
  cases payload <;> first | rfl | cases h

/-- What is in the arena after a node has been added is the node, or was there before. -/
theorem Arena.node?_added_cases {a : Arena} {payload : Payload (Option NodeId)} {start stop : Nat}
    {i : NodeId} {n : Node} (h : (a.added payload start stop).node? i = some n) :
    (n.payload = payload ∧ n.start = start) ∨
      ∃ m, a.node? i = some m ∧ n.payload = m.payload ∧ n.start = m.start := by
  rw [node?_added] at h
  obtain ⟨m, hm, rfl⟩ := Option.map_eq_some_iff.mp h
  have hsame : (if i ∈ childrenOf payload then { m with parent := some a.size } else m).payload =
      m.payload ∧
      (if i ∈ childrenOf payload then { m with parent := some a.size } else m).start = m.start := by
    split
    · exact ⟨rfl, rfl⟩
    · exact ⟨rfl, rfl⟩
  split at hm
  · cases hm
    exact .inl hsame
  · exact .inr ⟨m, hm, hsame⟩

namespace Token

variable {c : String} {passed : List Token} {u : Token}

/-- One of the tokens has the comment, and neither it nor those after it end the comment's reach. -/
def Carried (c : String) (passed : List Token) : Prop :=
  ∃ before t behind, passed = before ++ t :: behind ∧ t.doc = some c ∧
    ∀ u ∈ t :: behind, u.kind.endsDoc = false

theorem Carried.concat (h : Carried c passed) (hu : u.kind.endsDoc = false) :
    Carried c (passed ++ [u]) := by
  obtain ⟨before, t, behind, rfl, ht, hall⟩ := h
  refine ⟨before, t, behind ++ [u], by simp, ht, fun v hv => ?_⟩
  rcases List.mem_append.mp (List.cons_append ▸ hv : v ∈ t :: behind ++ [u]) with hv | hv
  · exact hall v hv
  · exact List.mem_singleton.mp hv ▸ hu

theorem carried_last (hd : u.doc = some c) (hu : u.kind.endsDoc = false) :
    Carried c (passed ++ [u]) :=
  ⟨passed, u, [], rfl, hd, fun _ hv => List.mem_singleton.mp hv ▸ hu⟩

/-- A declaration that starts with one of the tokens has the comment of this token, or else one that
is carried on to it. -/
def Documents (ts : List Token) (start : Nat) (doc : Option String) : Prop :=
  ∃ passed t ahead, ts = passed ++ t :: ahead ∧ t.start = start ∧ t.kind ≠ .endOfFile ∧
    (∀ c, t.doc = some c → doc = some c) ∧ ∀ c, doc = some c → Carried c (passed ++ [t])

end Token

open Token

/-- The comment of the current token waits, if the token does not end its reach. -/
def TokenStream.Fresh (s : TokenStream) : Prop :=
  s.current.kind.endsDoc = false → ∀ c, s.current.doc = some c → s.doc = some c

theorem TokenStream.fresh_next_of_ahead {s : TokenStream} (h : s.ahead ≠ []) : s.next.Fresh := by
  obtain ⟨t, us, ha⟩ := List.exists_cons_of_ne_nil h
  intro ht c hc
  rw [next, ha] at ht hc ⊢
  dsimp only at ht hc ⊢
  rw [ht, hc]
  rfl

theorem TokenStream.fresh_next {s : TokenStream} : s.next = s ∨ s.next.Fresh := by
  by_cases h : s.ahead = []
  · left
    rw [next, h]
  · exact .inr (fresh_next_of_ahead h)

/-- What waits once a token has been read is its comment, or waited before. -/
theorem TokenStream.doc_next {s : TokenStream} {t : Token} {us : List Token} {c : String}
    (ha : s.ahead = t :: us) (hc : s.next.doc = some c) :
    t.kind.endsDoc = false ∧ (t.doc = some c ∨ s.doc = some c) := by
  rw [next, ha] at hc
  dsimp only at hc
  split at hc
  · cases hc
  · next ht =>
    rw [Option.orElse_eq_orElse, Option.orElse_eq_or] at hc
    exact ⟨by simpa using ht, (Option.or_eq_some_iff.mp hc).imp_right And.right⟩

theorem TokenStream.fresh_next_of_closed {s : TokenStream} (hc : Closed s.tokens)
    (hk : s.current.kind ≠ .endOfFile) : s.next.Fresh := by
  refine fresh_next.resolve_left fun he => ?_
  have hl := left_next hc hk
  rw [he] at hl
  omega

namespace Grammar

variable {ts : List Token} {s s' : State} {α β : Type} {m : Parse α} {f : α → Parse β}
variable {payload : Payload (Option NodeId)} {start n : Nat} {self : Rules}

/-- The comment that waits is carried on to the current token, and declarations have comments. -/
structure State.Resting (ts : List Token) (s : State) : Prop where
  waits : ∃ passed, ts = passed ++ s.stream.tokens ∧
    ∀ c, s.stream.doc = some c → Carried c (passed ++ [s.stream.current])
  documented : ∀ i n doc, s.arena.node? i = some n → n.payload.doc? = some doc →
    Documents ts n.start doc

namespace State.Resting

theorem closed (h : s.Resting ts) (hts : Closed ts) : Closed s.stream.tokens := by
  obtain ⟨passed, hpassed, -⟩ := h.waits
  exact hts.of_suffix ⟨passed, hpassed.symm⟩ (List.cons_ne_nil _ _)

theorem of_eq (h : s.Resting ts) (hs : s'.stream = s.stream) (ha : s'.arena = s.arena) :
    s'.Resting ts where
  waits := hs ▸ h.waits
  documented := ha ▸ h.documented

theorem dropDoc (h : s.Resting ts) : State.Resting ts { s with stream := s.stream.dropDoc } where
  waits := by
    obtain ⟨passed, hpassed, -⟩ := h.waits
    exact ⟨passed, hpassed, nofun⟩
  documented := h.documented

theorem next (h : s.Resting ts) : s.next.Resting ts where
  waits := by
    obtain ⟨passed, hpassed, hdoc⟩ := h.waits
    rcases ha : s.stream.ahead with _ | ⟨t, us⟩
    · rw [State.next, TokenStream.next, ha]
      exact ⟨passed, hpassed, hdoc⟩
    · have hnext : s.stream.next.tokens = t :: us := by rw [TokenStream.next, ha]; rfl
      refine ⟨passed ++ [s.stream.current], ?_, fun c hc => ?_⟩
      · rw [hpassed, State.next, hnext, TokenStream.tokens, ha, List.append_assoc]
        rfl
      · have hcurrent : s.next.stream.current = t := (List.cons.inj hnext).1
        obtain ⟨ht, hc | hc⟩ := TokenStream.doc_next ha hc
        · exact hcurrent ▸ carried_last hc ht
        · exact hcurrent ▸ (hdoc c hc).concat ht
  documented := h.documented

/-- A node may be added that has no comment, or the comment of its place. -/
theorem node (h : s.Resting ts) (hd : ∀ doc, payload.doc? = some doc → Documents ts start doc)
    {i : NodeId} (hr : (Grammar.node payload start).run s = some (i, s')) :
    s'.Resting ts ∧ s'.stream = s.stream := by
  cases hr
  refine ⟨⟨h.waits, fun i n doc hn hdoc => ?_⟩, rfl⟩
  rcases Arena.node?_added_cases hn with ⟨hp, hs⟩ | ⟨m, hm, hp, hs⟩
  · exact hs ▸ hd doc (hp ▸ hdoc)
  · exact hs ▸ h.documented i m doc hm (hp ▸ hdoc)

/-- What a declaration gets that starts at the current token and takes its comment. -/
theorem documents (h : s.Resting ts) (hf : s.stream.Fresh)
    (hk : s.stream.current.kind.endsDoc = false) (he : s.stream.current.kind ≠ .endOfFile) :
    Documents ts s.stream.current.start s.stream.doc := by
  obtain ⟨passed, hpassed, hdoc⟩ := h.waits
  exact ⟨passed, _, _, hpassed, rfl, he, hf hk, hdoc⟩

end State.Resting

/-! ## Rules that take no comments -/

/-- Run from the state, the rule leaves the stream where it is, or the comment of the current token
waits. -/
def SettlesFrom (ts : List Token) (s : State) (m : Parse α) : Prop :=
  ∀ a s', m.run s = some (a, s') → s'.Resting ts ∧ (s'.stream = s.stream ∨ s'.stream.Fresh)

def Settles (ts : List Token) (m : Parse α) : Prop := ∀ s, s.Resting ts → SettlesFrom ts s m

theorem settles_of_eq (h : ∀ s a s', m.run s = some (a, s') →
    s'.stream = s.stream ∧ s'.arena = s.arena) : Settles ts m := by
  intro s hs a s' hr
  obtain ⟨hstream, harena⟩ := h s a s' hr
  exact ⟨hs.of_eq hstream harena, .inl hstream⟩

namespace SettlesFrom

theorem bindRun (hm : SettlesFrom ts s m)
    (hf : ∀ a s', m.run s = some (a, s') → SettlesFrom ts s' (f a)) :
    SettlesFrom ts s (m >>= f) := by
  intro b s'' hr
  obtain ⟨a, s', hr, hr'⟩ := run_bind_eq_some hr
  obtain ⟨hs'', he | hfresh⟩ := hf a s' hr b s'' hr'
  · exact ⟨hs'', he ▸ (hm a s' hr).2⟩
  · exact ⟨hs'', .inr hfresh⟩

theorem bind (hm : SettlesFrom ts s m) (hf : ∀ a, Settles ts (f a)) : SettlesFrom ts s (m >>= f) :=
  hm.bindRun fun a s' hr => hf a s' (hm a s' hr).1

theorem look {g : State → α} (hm : Looks m g) (h : SettlesFrom ts s (f (g s))) :
    SettlesFrom ts s (m >>= f) := by
  intro b s' hr
  rw [hm.run_bind] at hr
  exact h b s' hr

end SettlesFrom

theorem settles_node (hd : ∀ doc, payload.doc? = some doc → Documents ts start doc) :
    Settles ts (node payload start) := by
  intro s hs i s' hr
  obtain ⟨hs', he⟩ := hs.node hd hr
  exact ⟨hs', .inl he⟩

theorem settles_undocumented (h : payload.doc? = none) : Settles ts (node payload start) :=
  settles_node fun doc hd => by cases h.symm.trans hd

theorem settles_report {fault : SyntaxFault} : Settles ts (report fault) :=
  settles_of_eq fun s _ _ hr => by
    obtain ⟨_, _, rfl⟩ := exists_of_report hr
    exact ⟨rfl, rfl⟩

theorem growing_settles (ts : List Token) : Growing fun _ m => Settles ts m where
  pure _ := settles_of_eq fun s _ _ hr => by cases hr; exact ⟨rfl, rfl⟩
  bind hm hf s hs := (hm s hs).bind hf
  look hm := settles_of_eq fun s _ _ hr => by
    rw [hm s] at hr
    cases hr
    exact ⟨rfl, rfl⟩
  outOfSteps := fun _ _ _ _ hr => nomatch hr
  advance s hs _ _ hr := by
    cases hr
    exact ⟨hs.next, TokenStream.fresh_next⟩
  report _ := settles_report
  node h := settles_undocumented (Payload.doc?_of_isElementary h)

theorem settles_depth (d : Nat → Nat) :
    Settles ts (modify fun s => { s with depth := d s.depth } : Parse PUnit) :=
  settles_of_eq fun s _ _ hr => by cases hr; exact ⟨rfl, rfl⟩

theorem settles_rules (ts : List Token) (n : Nat) :
    OfExpressions (fun _ m => Settles ts m) (rules n) := by
  have hg := growing_settles ts
  induction n with
  | zero =>
    have hparentheses (start : Nat) : Settles ts (parentheses (rules 0) start) :=
      hg.parentheses hg.outOfSteps fun _ => hg.bind (settles_undocumented rfl) fun _ => hg.pure _
    exact ⟨hg.outOfSteps, fun _ => hg.outOfSteps, hg.outOfSteps, hg.outOfSteps, hparentheses⟩
  | succ n ih =>
    have hoperation {payload : Payload (Option NodeId)} (start : Nat)
        (h : payload.isOperation = true) : Settles ts (node payload start) :=
      settles_undocumented (Payload.doc?_of_isOperation h)
    have hexpression : Settles ts (rules (n + 1) .expression) :=
      hg.nested settles_depth settles_report (hg.pure ()) (hg.assignment ih hoperation)
    exact
      { expression := hexpression
        operand := fun _ => hg.operandRule ih hoperation
        unary := hg.unaryRule ih
        primary := hg.primaryRule ih
        parentheses := fun _ => hg.parentheses hexpression fun _ =>
          hg.bind (settles_undocumented rfl) fun _ => hg.pure _ }

end Grammar

end PhpAtlas
