import PhpAtlas.Proofs.Brackets.Covering
import PhpAtlas.Proofs.Passing

/-! # Rules and brackets

A rule that reports nothing takes some awaited brackets and leaves others. At the
end of the file an expression may be cut; a statement may only if it is skipped.
-/

namespace PhpAtlas.Grammar

variable {α β : Type} {s s' s'' : State} {t : Token} {kind : TokenKind} {strict : Bool}

/-- Nothing has been reported. -/
def State.Clean (s : State) : Prop := s.diagnostics = #[] ∧ s.lastFault = none

def State.AtEnd (s : State) : Prop := s.stream.current.kind = .endOfFile

/-- The tokens up to the state are covered with the brackets `τ` awaited in the end, or the file is
over. If `strict`, only a skipped statement has been cut then. -/
def Covered (strict : Bool) (p : Place) (τ : List TokenKind) (s : State) : Prop :=
  (∃ runs, Covers runs p (τ, s.stream.tokens)) ∨
    s.AtEnd ∧ (strict = true → ∃ runs rest, Covers runs p (τ, rest) ∧ Unfinished rest)

/-- If nothing is reported from the state on, the rule takes `inp` from the awaited brackets and leaves
what `out` has of its result; `none` is for what does not come up. -/
def MovesFrom (s : State) (strict : Bool) (inp : Option (List TokenKind)) (m : Parse α)
    (out : α → Option (List TokenKind)) : Prop :=
  ∀ r s', m.run s = some (r, s') → Later s s' ∧ (s'.Clean → s.Clean) ∧
    (Token.Closed s.stream.tokens → s'.Clean → ∀ k ∈ inp, ∃ k' ∈ out r, ∀ σ,
      Covered strict (k ++ σ, s.stream.tokens) (k' ++ σ) s')

/-- The same from every state at the token, or at any token. -/
def MovesAt (t : Token) (strict : Bool) (inp : Option (List TokenKind)) (m : Parse α)
    (out : α → Option (List TokenKind)) : Prop :=
  ∀ s, s.stream.current = t → MovesFrom s strict inp m out

def Moves (strict : Bool) (inp : Option (List TokenKind)) (m : Parse α)
    (out : α → Option (List TokenKind)) : Prop :=
  ∀ t, MovesAt t strict inp m out

/-- The rule leaves the awaited brackets as they are. -/
abbrev Even (strict : Bool) (m : Parse α) : Prop := Moves strict (some []) m fun _ => some []

/-- Nothing is awaited besides where there is a result; where there is none, something is reported. -/
def found (r : Option α) : Option (List TokenKind) := r.map fun _ => []

variable {inp : Option (List TokenKind)} {out out' mid : α → Option (List TokenKind)}
variable {res : β → Option (List TokenKind)} {m : Parse α} {f : α → Parse β}

theorem Covered.refl {σ : List TokenKind} : Covered strict (σ, s.stream.tokens) σ s :=
  .inl ⟨[], .done⟩

theorem tokens_of_later (hc : Token.Closed s.stream.tokens) (he : s.AtEnd) (hl : Later s s') :
    s'.stream.tokens = s.stream.tokens := by
  have hn : s.stream.ahead = [] := hc.eq_nil he
  refine hl.eq_of_length_le ?_
  simp [TokenStream.tokens, hn]

theorem Covered.trans {p : Place} {σ τ : List TokenKind} (hc : Token.Closed s.stream.tokens)
    (hl : Later s s') (h : Covered strict p σ s) (h' : Covered strict (σ, s.stream.tokens) τ s') :
    Covered strict p τ s' := by
  rcases h with ⟨runs, h⟩ | ⟨he, h⟩
  · rcases h' with ⟨runs', h'⟩ | ⟨he', h'⟩
    · exact .inl ⟨_, h.trans h'⟩
    · refine .inr ⟨he', fun hs => ?_⟩
      obtain ⟨runs', rest, h', hu⟩ := h' hs
      exact ⟨_, rest, h.trans h', hu⟩
  · have ht := tokens_of_later hc he hl
    have hn : s.stream.tokens = [s.stream.current] := by
      rw [TokenStream.tokens, hc.eq_nil he]
    have he' : s'.AtEnd := by
      rw [State.AtEnd, (List.cons.inj ht).1]
      exact he
    have hσ (hs : strict = true) : σ = τ := by
      rcases h' with ⟨runs', h'⟩ | ⟨-, h'⟩
      · rw [hn] at h'
        exact (h'.at_end he).1
      · obtain ⟨runs', rest, h', -⟩ := h' hs
        rw [hn] at h'
        exact (h'.at_end he).1
    refine .inr ⟨he', fun hs => ?_⟩
    obtain ⟨runs, rest, h, hu⟩ := h hs
    exact ⟨runs, rest, hσ hs ▸ h, hu⟩

/-! ## Putting rules together -/

/-- What does not come up need not be gone into. -/
theorem MovesAt.never (h : MovesAt t strict inp m out) : MovesAt t strict none m out' := by
  intro s ht r s' hr
  obtain ⟨hl, hc, -⟩ := h s ht r s' hr
  exact ⟨hl, hc, nofun⟩

theorem Moves.never (h : Moves strict inp m out) : Moves strict none m out' := fun t => (h t).never

theorem MovesFrom.pure {a : α} (h : ∀ k ∈ inp, k ∈ out a) :
    MovesFrom s strict inp (Pure.pure a) out := by
  intro r s' hr
  cases hr
  exact ⟨.refl s, id, fun _ _ k hk => ⟨k, h k hk, fun _ => .refl⟩⟩

theorem MovesAt.pure {a : α} (h : ∀ k ∈ inp, k ∈ out a) :
    MovesAt t strict inp (Pure.pure a) out :=
  fun _ _ => .pure h

theorem Moves.pure {a : α} (h : ∀ k ∈ inp, k ∈ out a) : Moves strict inp (Pure.pure a) out :=
  fun _ => .pure h

theorem MovesFrom.bind (hm : MovesFrom s strict inp m mid)
    (hf : ∀ a s', m.run s = some (a, s') → MovesFrom s' strict (mid a) (f a) res) :
    MovesFrom s strict inp (m >>= f) res := by
  intro r s'' h
  obtain ⟨a, s', hr, hr'⟩ := run_bind_eq_some h
  obtain ⟨hl, hc, hm⟩ := hm a s' hr
  obtain ⟨hl', hc', hf⟩ := hf a s' hr r s'' hr'
  refine ⟨hl.trans hl', hc ∘ hc', fun hs hc'' k hk => ?_⟩
  have hs' : Token.Closed s'.stream.tokens := hs.of_suffix hl (List.cons_ne_nil _ _)
  obtain ⟨k', hk', hm⟩ := hm hs (hc' hc'') k hk
  obtain ⟨k'', hk'', hf⟩ := hf hs' hc'' k' hk'
  exact ⟨k'', hk'', fun σ => (hm σ).trans hs' hl' (hf σ)⟩

theorem MovesAt.bind (hm : MovesAt t strict inp m mid) (hf : ∀ a, Moves strict (mid a) (f a) res) :
    MovesAt t strict inp (m >>= f) res :=
  fun s hs => (hm s hs).bind fun a s' _ => hf a _ s' rfl

theorem Moves.bind (hm : Moves strict inp m mid) (hf : ∀ a, Moves strict (mid a) (f a) res) :
    Moves strict inp (m >>= f) res :=
  fun t => (hm t).bind hf

/-- More may be awaited below what the rule takes. -/
theorem MovesAt.frame (hm : MovesAt t strict inp m out) (ρ : List TokenKind) :
    MovesAt t strict (inp.map (· ++ ρ)) m fun r => (out r).map (· ++ ρ) := by
  intro s ht r s' hr
  obtain ⟨hl, hc, hm⟩ := hm s ht r s' hr
  refine ⟨hl, hc, fun hs hc k hk => ?_⟩
  obtain ⟨κ, hκ, rfl⟩ := Option.map_eq_some_iff.mp hk
  obtain ⟨k', hk', hm⟩ := hm hs hc κ hκ
  refine ⟨k' ++ ρ, Option.map_eq_some_iff.mpr ⟨k', hk', rfl⟩, fun σ => ?_⟩
  simpa only [List.append_assoc] using hm (ρ ++ σ)

/-- The rule runs while brackets are awaited. -/
theorem MovesAt.next {ρ : List TokenKind} (hm : MovesAt t strict (some []) m mid)
    (hf : ∀ a, Moves strict ((mid a).map (· ++ ρ)) (f a) res) :
    MovesAt t strict (some ρ) (m >>= f) res :=
  (hm.frame ρ).bind hf

theorem Moves.next {ρ : List TokenKind} (hm : Moves strict (some []) m mid)
    (hf : ∀ a, Moves strict ((mid a).map (· ++ ρ)) (f a) res) :
    Moves strict (some ρ) (m >>= f) res :=
  fun t => (hm t).next hf

theorem MovesAt.map {g : α → β} (hm : MovesAt t strict inp m fun r => res (g r)) :
    MovesAt t strict inp (g <$> m) res := by
  rw [← bind_pure_comp]
  exact hm.bind fun a => .pure fun _ => id

theorem Moves.map {g : α → β} (hm : Moves strict inp m fun r => res (g r)) :
    Moves strict inp (g <$> m) res :=
  fun t => (hm t).map

theorem Moves.discard {o : Option (List TokenKind)} (hm : Moves strict inp m fun _ => o) :
    Moves strict inp (Functor.discard m) fun _ => o :=
  Moves.map hm

theorem MovesFrom.ite {p : Prop} [Decidable p] {m₁ m₂ : Parse α}
    (h₁ : p → MovesFrom s strict inp m₁ out) (h₂ : ¬p → MovesFrom s strict inp m₂ out) :
    MovesFrom s strict inp (if p then m₁ else m₂) out := by
  split
  · next h => exact h₁ h
  · next h => exact h₂ h

theorem MovesAt.ite {p : Prop} [Decidable p] {m₁ m₂ : Parse α}
    (h₁ : p → MovesAt t strict inp m₁ out) (h₂ : ¬p → MovesAt t strict inp m₂ out) :
    MovesAt t strict inp (if p then m₁ else m₂) out :=
  fun s hs => .ite (fun h => h₁ h s hs) fun h => h₂ h s hs

theorem Moves.ite {p : Prop} [Decidable p] {m₁ m₂ : Parse α} (h₁ : p → Moves strict inp m₁ out)
    (h₂ : ¬p → Moves strict inp m₂ out) : Moves strict inp (if p then m₁ else m₂) out :=
  fun t => .ite (fun h => h₁ h t) fun h => h₂ h t

theorem MovesFrom.look {g : State → α} (hm : Looks m g) (h : MovesFrom s strict inp (f (g s)) res) :
    MovesFrom s strict inp (m >>= f) res := by
  intro r s' hr
  rw [hm.run_bind] at hr
  exact h r s' hr

theorem MovesAt.look {g : State → α} (hm : Looks m g)
    (h : ∀ s, s.stream.current = t → MovesAt t strict inp (f (g s)) res) :
    MovesAt t strict inp (m >>= f) res :=
  fun s hs => .look hm (h s hs s hs)

theorem Moves.look {g : State → α} (hm : Looks m g) (h : ∀ a, Moves strict inp (f a) res) :
    Moves strict inp (m >>= f) res :=
  fun t => .look hm fun s _ => h (g s) t

theorem MovesAt.token {f : Token → Parse β} (h : MovesAt t strict inp (f t) res) :
    MovesAt t strict inp (Grammar.token >>= f) res :=
  .look looks_token fun _ hs => hs ▸ h

theorem MovesAt.mono (hm : MovesAt t strict inp m out) (h : ∀ r, ∀ k ∈ out r, k ∈ out' r) :
    MovesAt t strict inp m out' := by
  intro s ht r s' hr
  obtain ⟨hl, hc, hm⟩ := hm s ht r s' hr
  refine ⟨hl, hc, fun hs hc k hk => ?_⟩
  obtain ⟨k', hk', hm⟩ := hm hs hc k hk
  exact ⟨k', h r k' hk', hm⟩

theorem Moves.mono (hm : Moves strict inp m out) (h : ∀ r, ∀ k ∈ out r, k ∈ out' r) :
    Moves strict inp m out' :=
  fun t => (hm t).mono h

/-- Where it does not matter if there is a result, the rule only passes over tokens. -/
theorem Moves.even {r : Type} {m : Parse (Option r)} (hm : Moves strict inp m found) :
    Moves strict inp m fun _ => some [] := by
  refine fun t => (hm t).mono ?_
  rintro (_ | r) k hk
  · cases hk
  · exact hk

/-- The rule runs where it does not matter what is awaited. -/
theorem Even.any (hm : Even strict m) : Moves strict inp m fun _ => inp := by
  cases inp with
  | none => exact fun t => (hm t).never
  | some ρ => exact fun t => (hm t).frame ρ

theorem Even.next (hm : Even strict m) (hf : ∀ a, Moves strict inp (f a) res) :
    Moves strict inp (m >>= f) res :=
  hm.any.bind hf

theorem Looks.even {g : State → α} (hm : Looks m g) : Even strict m := by
  intro t s _ r s' hr
  rw [hm s] at hr
  cases hr
  exact ⟨.refl s, id, fun _ _ k hk => ⟨k, hk, fun _ => .refl⟩⟩

/-! ## What every rule is made of -/

theorem moves_outOfSteps : Moves strict inp (outOfSteps : Parse α) out := by
  intro t s _ r s' hr
  cases hr

/-- The rule changes neither the tokens nor what has been reported. -/
theorem even_modify {g : State → State} (h : ∀ s, (g s).stream.tokens = s.stream.tokens ∧
    (g s).diagnostics = s.diagnostics ∧ (g s).lastFault = s.lastFault) :
    Even strict (modify g : Parse PUnit) := by
  intro t s _ r s' hr
  cases hr
  obtain ⟨ht, hd, hf⟩ := h s
  refine ⟨.of_eq ht, fun hc => ⟨hd ▸ hc.1, hf ▸ hc.2⟩, fun _ _ k hk => ⟨k, hk, fun σ => ?_⟩⟩
  rw [← ht]
  exact .refl

theorem even_takeDoc : Even strict takeDoc := by
  intro t s _ r s' hr
  cases hr
  exact ⟨.of_eq rfl, id, fun _ _ k hk => ⟨k, hk, fun _ => .refl⟩⟩

variable {payload : Payload (Option NodeId)} {start : Nat} {spelling part : String}
variable {fault : SyntaxFault}

theorem even_node : Even strict (node payload start) := by
  intro t s _ r s' hr
  cases hr
  exact ⟨.of_eq rfl, id, fun _ _ k hk => ⟨k, hk, fun _ => .refl⟩⟩

theorem moves_done : Moves strict (some []) (done payload start) found :=
  even_node.bind fun _ => .pure fun _ => id

theorem not_clean_report {r : Unit} (h : (report fault).run s = some (r, s')) : ¬s'.Clean := by
  intro hc
  cases h
  have hf := hc.2
  dsimp only at hf
  split at hf
  · next hl => exact Option.some_ne_none _ (hl.symm.trans hf)
  · exact Option.some_ne_none _ hf

/-- After a report there is no way back to none. -/
theorem moves_report : Moves strict inp (report fault) fun _ => none := by
  intro t s _ r s' hr
  have hc : ¬s'.Clean := not_clean_report hr
  have hl : Later s s' := by
    obtain ⟨_, _, rfl⟩ := exists_of_report hr
    exact .of_eq rfl
  exact ⟨hl, fun h => absurd h hc, fun _ h => absurd h hc⟩

theorem moves_fail : Moves strict inp (fail part) (found : Option NodeId → _) :=
  moves_report.bind fun _ => .pure nofun

theorem run_advance {r : Unit} (h : advance.run s = some (r, s')) :
    Later s s' ∧ (s'.Clean → s.Clean) ∧ s'.stream = s.stream.next := by
  cases h
  exact ⟨s.stream.tokens_next_suffix, id, rfl⟩

theorem moves_advance_never {out : Unit → Option (List TokenKind)} :
    Moves strict none advance out := by
  intro t s _ r s' hr
  obtain ⟨hl, hc, -⟩ := run_advance hr
  exact ⟨hl, hc, nofun⟩

theorem tokens_eq_cons (hs : Token.Closed s.stream.tokens)
    (hk : s.stream.current.kind ≠ .endOfFile) :
    s.stream.tokens = s.stream.current :: s.stream.next.tokens := by
  unfold TokenStream.next
  split
  · next ha =>
    rw [TokenStream.tokens, ha] at hs
    exact absurd hs hk
  · next ha => rw [TokenStream.tokens, ha, TokenStream.tokens]

/-- Reading a token goes the one step that the token covers. -/
theorem movesAt_advance {κ κ' : List TokenKind} (ht : t.kind ≠ .endOfFile)
    (hc : ∀ σ ts, Covers [] (κ ++ σ, t :: ts) (κ' ++ σ, ts)) :
    MovesAt t strict (some κ) advance fun _ => some κ' := by
  rintro s rfl r s' hr
  obtain ⟨hl, hclean, hn⟩ := run_advance hr
  refine ⟨hl, hclean, fun hs _ k hk => ⟨κ', rfl, fun σ => .inl ⟨[], ?_⟩⟩⟩
  obtain rfl := Option.some.inj hk
  rw [tokens_eq_cons hs ht, hn]
  exact hc σ _

theorem ne_endOfFile_of_isPlain (h : kind.isPlain = true) : kind ≠ .endOfFile := by
  rintro rfl
  cases h

theorem movesAt_plain (ht : t.kind.isPlain = true) :
    MovesAt t strict (some []) advance fun _ => some [] :=
  movesAt_advance (ne_endOfFile_of_isPlain ht) fun _ _ => .plain ht .done

/-- After a token the rule goes on at the next one. -/
theorem MovesFrom.advance {g : Unit → Parse β} {κ μ ρ : List TokenKind}
    (ht : s.stream.current.kind ≠ .endOfFile)
    (hc : ∀ σ ts, Covers [] (κ ++ σ, s.stream.current :: ts) (μ ++ σ, ts))
    (h : ∀ s', s'.stream = s.stream.next → MovesFrom s' strict (some (μ ++ ρ)) (g ()) res) :
    MovesFrom s strict (some (κ ++ ρ)) (advance >>= g) res :=
  ((movesAt_advance ht hc).frame ρ s rfl).bind fun _ s' hr => h s' (run_advance hr).2.2

theorem MovesFrom.plain {g : Unit → Parse β} {ρ : List TokenKind}
    (ht : s.stream.current.kind.isPlain = true)
    (h : ∀ s', s'.stream = s.stream.next → MovesFrom s' strict (some ρ) (g ()) res) :
    MovesFrom s strict (some ρ) (Grammar.advance >>= g) res :=
  .advance (κ := []) (μ := []) (ne_endOfFile_of_isPlain ht) (fun _ _ => .plain ht .done) h

theorem MovesFrom.opening {g : Unit → Parse β} {closer : TokenKind} {ρ : List TokenKind}
    (ht : s.stream.current.kind.closer? = some closer)
    (h : ∀ s', s'.stream = s.stream.next → MovesFrom s' strict (some (closer :: ρ)) (g ()) res) :
    MovesFrom s strict (some ρ) (Grammar.advance >>= g) res := by
  have he : s.stream.current.kind ≠ .endOfFile := by
    intro he
    rw [he] at ht
    cases ht
  exact .advance (κ := []) (μ := [closer]) he (fun _ _ => .opening ht .done) h

theorem MovesFrom.closing {g : Unit → Parse β} {closer : TokenKind} {ρ : List TokenKind}
    (ht : s.stream.current.kind = closer) (hc : closer.isCloser = true)
    (h : ∀ s', s'.stream = s.stream.next → MovesFrom s' strict (some ρ) (g ()) res) :
    MovesFrom s strict (some (closer :: ρ)) (Grammar.advance >>= g) res := by
  subst ht
  have he : s.stream.current.kind ≠ .endOfFile := by
    intro he
    rw [he] at hc
    cases hc
  exact .advance (κ := [s.stream.current.kind]) (μ := []) he (fun _ _ => .closing hc .done) h

theorem MovesAt.plain {g : Unit → Parse β} (ht : t.kind.isPlain = true)
    (h : Moves strict inp (g ()) res) : MovesAt t strict inp (advance >>= g) res := by
  cases inp with
  | none => exact (movesAt_plain ht).never.bind fun _ => h
  | some ρ => exact (movesAt_plain ht).next fun _ => h

theorem MovesAt.opening {g : Unit → Parse β} {closer : TokenKind} {ρ : List TokenKind}
    (ht : t.kind.closer? = some closer) (h : Moves strict (some (closer :: ρ)) (g ()) res) :
    MovesAt t strict (some ρ) (advance >>= g) res :=
  fun _ hs => .opening (hs ▸ ht) fun s' _ => h _ s' rfl

theorem MovesAt.closing {g : Unit → Parse β} {ρ : List TokenKind} (ht : t.kind.isCloser = true)
    (h : Moves strict (some ρ) (g ()) res) :
    MovesAt t strict (some (t.kind :: ρ)) (advance >>= g) res :=
  fun _ hs => .closing (congrArg Token.kind hs) ht fun s' _ => h _ s' rfl

theorem even_accept (h : kind.isPlain = true) : Even strict (accept kind) := by
  refine fun t => .look (looks_isAt kind) fun s hs => .ite (fun hk => ?_) fun _ => .pure fun _ => id
  have ht : t.kind = kind := hs ▸ eq_of_beq hk
  exact .plain (ht ▸ h) (.pure fun _ => id)

theorem moves_accept_opening {closer : TokenKind} (h : kind.closer? = some closer) :
    Moves strict (some []) (accept kind) fun b => some (if b then [closer] else []) := by
  refine fun t => .look (looks_isAt kind) fun s hs => .ite (fun hk => ?_) fun _ => .pure fun _ => id
  have ht : t.kind = kind := hs ▸ eq_of_beq hk
  exact .opening (ht ▸ h) (.pure fun _ => id)

theorem MovesAt.accept {f : Bool → Parse β} (hk : kind.isPlain = true)
    (h₁ : Moves strict inp (f true) res) (h₂ : MovesAt t strict inp (f false) res) :
    MovesAt t strict inp (Grammar.accept kind >>= f) res := by
  unfold Grammar.accept
  rw [bind_assoc]
  refine .look (looks_isAt kind) fun s hs => ?_
  split
  · next h =>
    have ht : t.kind = kind := hs ▸ eq_of_beq h
    rw [bind_assoc]
    exact .plain (ht ▸ hk) h₁
  · exact h₂

theorem even_expect (h : kind.isPlain = true) : Even strict (expect kind spelling) :=
  (even_accept h).next fun _ => .ite (fun _ => .pure fun _ => id) fun _ =>
    moves_report.bind fun _ => .pure nofun

theorem moves_expect_opening {closer : TokenKind} (h : kind.closer? = some closer) :
    Moves strict (some []) (expect kind spelling) fun b => if b then some [closer] else none := by
  apply (moves_accept_opening h).bind
  rintro (_ | _)
  · exact moves_report.bind fun _ => .pure nofun
  · exact .pure fun _ => id

theorem moves_expect_closing (h : kind.isCloser = true) :
    Moves strict (some [kind]) (expect kind spelling) fun _ => some [] := by
  unfold expect accept
  rw [bind_assoc]
  refine fun t => .look (looks_isAt kind) fun s hs => ?_
  split
  · next hk =>
    obtain rfl : t.kind = kind := hs ▸ eq_of_beq hk
    rw [bind_assoc]
    exact .closing h (.pure fun _ => id)
  · rw [pure_bind]
    exact (moves_report.bind fun _ => .pure nofun) t

theorem Moves.opening {f : PUnit → Parse β} {closer : TokenKind} {ρ : List TokenKind}
    (h : kind.closer? = some closer) (hf : Moves strict (some (closer :: ρ)) (f ()) res) :
    Moves strict (some ρ) (Functor.discard (expect kind spelling) >>= f) res := by
  have he : Moves strict (some []) (Functor.discard (expect kind spelling)) fun _ => some [closer] := by
    apply Moves.map
    refine fun t => (moves_expect_opening h t).mono ?_
    rintro (_ | _) k hk
    · cases hk
    · exact hk
  exact he.next fun _ => hf

theorem Moves.closing {f : PUnit → Parse β} {ρ : List TokenKind} (h : kind.isCloser = true)
    (hf : Moves strict (some ρ) (f ()) res) :
    Moves strict (some (kind :: ρ)) (Functor.discard (expect kind spelling) >>= f) res := by
  have he : Moves strict (some [kind]) (Functor.discard (expect kind spelling)) fun _ => some [] :=
    (moves_expect_closing h).discard
  exact Moves.bind (fun t => (he t).frame ρ) fun _ => hf

/-- Without a report the token that is expected is there. -/
theorem kind_of_expect {b : Bool} (h : (expect kind spelling).run s = some (b, s')) (hc : s'.Clean) :
    s.stream.current.kind = kind := by
  by_contra hk
  unfold expect accept at h
  rw [bind_assoc, (looks_isAt kind).run_bind, if_neg (by simpa using hk), pure_bind] at h
  obtain ⟨_, s₁, hr, h⟩ := run_bind_eq_some h
  cases h
  exact not_clean_report hr hc

theorem even_expectSemicolon : Even strict expectSemicolon :=
  (even_accept rfl).next fun _ => .ite (fun _ => .pure fun _ => id) fun _ =>
    .look (looks_isAt _) fun _ => .ite (fun _ => .pure fun _ => id) fun _ =>
      moves_report.bind fun _ => .pure nofun

theorem Moves.nested {recover : Parse Unit} {rule : Parse (Option NodeId)}
    {res : Option NodeId → Option (List TokenKind)} (hr : Moves strict none recover fun _ => none)
    (h : Moves strict (some []) rule res) : Moves strict (some []) (nested recover rule) res := by
  have hdepth (g : Nat → Nat) :
      Even strict (modify fun s => { s with depth := g s.depth } : Parse PUnit) :=
    even_modify fun _ => ⟨rfl, rfl, rfl⟩
  unfold Grammar.nested
  refine (hdepth (· + 1)).next fun _ => .look looks_get fun _ => .ite (fun _ => ?_) fun _ => ?_
  · refine moves_report.bind fun _ => (hdepth (· - 1)).next fun _ => hr.bind fun _ => .pure nofun
  · exact h.bind fun r => (hdepth (· - 1)).next fun _ => .pure fun _ => id

/-- Passing over tokens takes back no report, whatever brackets are among them. -/
theorem inherited_never : Inherited fun _ m => Moves strict none m fun _ => none where
  pure _ := .pure nofun
  bind := .bind
  look hm := hm.even.any
  outOfSteps := moves_outOfSteps
  advance := moves_advance_never
  report _ := moves_report

/-! ## Steps of a skip -/

/-- Where a step of a skip leads: it is over before the token or behind it, or it goes on behind it
with some brackets open. -/
inductive SkipStep
  | before
  | behind
  | on (depth : Nat)

/-- What comes of the step if `m` is what goes on. -/
def SkipStep.result (next : SkipStep) (m : Nat → Parse Unit) (s : State) : Option (Unit × State) :=
  match next with
  | .before => some ((), s)
  | .behind => some ((), s.next)
  | .on depth => (m depth).run s.next

/-- The steps of an opaque run, at a kind of token. -/
inductive OpaqueStep (depth : Nat) (kind : TokenKind) : SkipStep → Prop
  | cut (hk : kind = .endOfFile) : OpaqueStep depth kind .before
  | stop (hd : depth = 0) (hk : (kind.isSeparator || kind.isCloser) = true) :
      OpaqueStep depth kind .before
  | opening (hk : kind.closer?.isSome = true) : OpaqueStep depth kind (.on (depth + 1))
  | closing (hd : 0 < depth) (hk : kind.isCloser = true) : OpaqueStep depth kind (.on (depth - 1))
  | inner (hk : kind.isBracket = false) (he : kind ≠ .endOfFile)
      (hs : depth = 0 → kind.isSeparator = false) : OpaqueStep depth kind (.on depth)

/-- The steps of a skipped statement, at a token with another behind it. -/
inductive SkippedStep (depth : Nat) (kind : TokenKind) (after : Token) : SkipStep → Prop
  | cut (hk : kind = .endOfFile) : SkippedStep depth kind after .before
  | stop (hd : depth = 0) (hk : kind = .closeBrace ∨ kind = .closeTag) :
      SkippedStep depth kind after .before
  | semicolon (hd : depth = 0) (hk : kind = .semicolon) : SkippedStep depth kind after .behind
  | block (hd : depth = 1) (hk : kind = .closeBrace) (hu : continues after = false) :
      SkippedStep depth kind after .behind
  | opening (hk : kind.closer?.isSome = true) : SkippedStep depth kind after (.on (depth + 1))
  | closing (hk : kind = .closeParen ∨ kind = .closeBracket) :
      SkippedStep depth kind after (.on (depth - 1))
  | brace (hk : kind = .closeBrace) (hd : 0 < depth) (hu : depth = 1 → continues after = true) :
      SkippedStep depth kind after (.on (depth - 1))
  | inner (hk : kind.isBracket = false) (he : kind ≠ .endOfFile)
      (hs : depth = 0 → kind ≠ .semicolon ∧ kind ≠ .closeTag) :
      SkippedStep depth kind after (.on depth)

section Steps

variable {depth : Nat} {after : Token} {next : SkipStep}

theorem ne_endOfFile_of_opens_bracket (h : kind.closer?.isSome = true) : kind ≠ .endOfFile := by
  rintro rfl
  cases h

theorem ne_endOfFile_of_isCloser (h : kind.isCloser = true) : kind ≠ .endOfFile := by
  rintro rfl
  cases h

theorem not_opens_of_isCloser (h : kind.isCloser = true) : ¬kind.closer?.isSome = true := by
  cases kind <;> simp [TokenKind.isCloser, TokenKind.closer?] at h ⊢

theorem closer_cases (h : kind.isCloser = true) (hb : kind ≠ .closeBrace) :
    kind = .closeParen ∨ kind = .closeBracket := by
  cases kind <;> first | exact .inl rfl | exact .inr rfl | exact absurd rfl hb | cases h

theorem exists_opaqueStep (depth : Nat) (kind : TokenKind) :
    ∃ next, OpaqueStep depth kind next := by
  by_cases he : kind = .endOfFile
  · exact ⟨_, .cut he⟩
  by_cases hstop : depth = 0 ∧ (kind.isSeparator || kind.isCloser) = true
  · exact ⟨_, .stop hstop.1 hstop.2⟩
  by_cases ho : kind.closer?.isSome = true
  · exact ⟨_, .opening ho⟩
  by_cases hc : kind.isCloser = true
  · exact ⟨_, .closing (Nat.pos_of_ne_zero fun h0 => hstop ⟨h0, by simp [hc]⟩) hc⟩
  · have hk : kind.isBracket = false := by simp [TokenKind.isBracket, ho, hc]
    refine ⟨_, .inner hk he fun h0 => Bool.eq_false_iff.mpr fun hs => hstop ⟨h0, ?_⟩⟩
    rw [hs, Bool.true_or]

theorem exists_skippedStep (depth : Nat) (kind : TokenKind) (after : Token) :
    ∃ next, SkippedStep depth kind after next := by
  by_cases he : kind = .endOfFile
  · exact ⟨_, .cut he⟩
  by_cases ho : kind.closer?.isSome = true
  · exact ⟨_, .opening ho⟩
  by_cases hb : kind = .closeBrace
  · rcases Nat.eq_zero_or_pos depth with h0 | hd
    · exact ⟨_, .stop h0 (.inl hb)⟩
    · by_cases hlast : depth = 1 ∧ continues after = false
      · exact ⟨_, .block hlast.1 hb hlast.2⟩
      · exact ⟨_, .brace hb hd fun h1 => by simpa [h1] using hlast⟩
  by_cases hc : kind.isCloser = true
  · exact ⟨_, .closing (closer_cases hc hb)⟩
  have hk : kind.isBracket = false := by simp [TokenKind.isBracket, ho, hc]
  by_cases h0 : depth = 0
  · by_cases hsemi : kind = .semicolon
    · exact ⟨_, .semicolon h0 hsemi⟩
    by_cases htag : kind = .closeTag
    · exact ⟨_, .stop h0 (.inr htag)⟩
    · exact ⟨_, .inner hk he fun _ => ⟨hsemi, htag⟩⟩
  · exact ⟨_, .inner hk he fun h => absurd h h0⟩

/-- One step of an opaque run, by the kinds of tokens that it tells apart. -/
theorem skipRun_succ (n depth : Nat) : skipRun (n + 1) depth = token >>= fun t =>
    if t.kind = .endOfFile then pure ()
    else if t.kind.closer?.isSome then advance >>= fun _ => skipRun n (depth + 1)
    else if t.kind.isCloser then
      if depth == 0 then pure () else advance >>= fun _ => skipRun n (depth - 1)
    else if t.kind.isSeparator then
      if depth == 0 then pure () else advance >>= fun _ => skipRun n depth
    else advance >>= fun _ => skipRun n depth := by
  rw [skipRun]
  congr
  funext t
  generalize t.kind = kind
  cases kind <;> rfl

/-- One step of a skipped statement, by the kinds of tokens that it tells apart. -/
theorem skipStatement_succ (n depth : Nat) : skipStatement (n + 1) depth = token >>= fun t =>
    if t.kind = .endOfFile then pure ()
    else if t.kind.closer?.isSome then advance >>= fun _ => skipStatement n (depth + 1)
    else if t.kind = .closeBrace then
      if depth == 0 then pure ()
      else
        advance >>= fun _ => token >>= fun after =>
          if depth == 1 && !continues after then pure () else skipStatement n (depth - 1)
    else if t.kind.isCloser then advance >>= fun _ => skipStatement n (depth - 1)
    else if t.kind = .semicolon then
      advance >>= fun _ => if depth == 0 then pure () else skipStatement n depth
    else if t.kind = .closeTag then
      if depth == 0 then pure () else advance >>= fun _ => skipStatement n depth
    else advance >>= fun _ => skipStatement n depth := by
  rw [skipStatement]
  congr
  funext t
  generalize t.kind = kind
  cases kind <;> rfl

theorem OpaqueStep.run (h : OpaqueStep depth s.stream.current.kind next) (n : Nat) :
    (skipRun (n + 1) depth).run s = next.result (skipRun n) s := by
  rw [skipRun_succ, looks_token.run_bind]
  cases h with
  | cut hk =>
    rw [if_pos hk]
    rfl
  | stop hd hk =>
    subst hd
    rcases Bool.or_eq_true_iff.mp hk with hk | hk
    · cases hs : s.stream.current.kind <;> simp [hs, TokenKind.isSeparator] at hk <;> rfl
    · rw [if_neg (ne_endOfFile_of_isCloser hk), if_neg (not_opens_of_isCloser hk), if_pos hk]
      rfl
  | opening hk =>
    rw [if_neg (ne_endOfFile_of_opens_bracket hk), if_pos hk]
    rfl
  | closing hd hk =>
    rw [if_neg (ne_endOfFile_of_isCloser hk), if_neg (not_opens_of_isCloser hk), if_pos hk,
      if_neg (by simpa using Nat.pos_iff_ne_zero.mp hd)]
    rfl
  | inner hk he hs =>
    obtain ⟨ho, hc⟩ := Bool.or_eq_false_iff.mp hk
    rw [if_neg he, if_neg (by simp [ho]), if_neg (by simp [hc])]
    split
    · next hsep =>
      rw [if_neg fun h0 => by simp [hs (eq_of_beq h0)] at hsep]
      rfl
    · rfl

theorem SkippedStep.run (h : SkippedStep depth s.stream.current.kind s.next.stream.current next)
    (n : Nat) : (skipStatement (n + 1) depth).run s = next.result (skipStatement n) s := by
  rw [skipStatement_succ, looks_token.run_bind]
  cases h with
  | cut hk =>
    rw [if_pos hk]
    rfl
  | stop hd hk =>
    subst hd
    rcases hk with hk | hk <;> simp only [hk] <;> rfl
  | semicolon hd hk =>
    subst hd
    simp only [hk]
    rfl
  | block hd hk hu =>
    subst hd
    rw [if_neg (by rw [hk]; nofun), if_neg (by rw [hk]; nofun), if_pos hk, if_neg (by decide),
      run_bind_of_eq run_advance_next, looks_token.run_bind, hu]
    rfl
  | opening hk =>
    rw [if_neg (ne_endOfFile_of_opens_bracket hk), if_pos hk]
    rfl
  | closing hk => rcases hk with hk | hk <;> simp only [hk] <;> rfl
  | brace hk hd hu =>
    rw [if_neg (by rw [hk]; nofun), if_neg (by rw [hk]; nofun), if_pos hk,
      if_neg (by simpa using Nat.pos_iff_ne_zero.mp hd), run_bind_of_eq run_advance_next,
      looks_token.run_bind, if_neg]
    · rfl
    · simpa using hu
  | inner hk he hs =>
    obtain ⟨ho, hc⟩ := Bool.or_eq_false_iff.mp hk
    rw [if_neg he, if_neg (by simp [ho]), if_neg (by rintro hb; simp [hb, TokenKind.isCloser] at hc),
      if_neg (by simp [hc])]
    split
    · next hsemi =>
      rw [run_bind_of_eq run_advance_next, if_neg fun h0 => (hs (eq_of_beq h0)).1 hsemi]
      rfl
    · split
      · next htag =>
        rw [if_neg fun h0 => (hs (eq_of_beq h0)).2 htag]
        rfl
      · rfl

end Steps

/-! ## Runs that are skipped -/

theorem closed_next (hs : Token.Closed s.stream.tokens) : Token.Closed s.next.stream.tokens :=
  hs.of_suffix s.stream.tokens_next_suffix (List.cons_ne_nil _ _)

theorem run_skipRun {n depth : Nat} (hs : Token.Closed s.stream.tokens)
    (h : (skipRun n depth).run s = some ((), s')) :
    s'.AtEnd ∨ ∃ run, s.stream.tokens = run ++ s'.stream.tokens ∧
      OpaqueRun depth run s'.stream.tokens := by
  induction n generalizing s depth with
  | zero => cases h
  | succ n ih =>
    -- What is read goes on, with some other number of open brackets.
    have go {depth' : Nat} (hk : s.stream.current.kind ≠ .endOfFile)
        (h : (skipRun n depth').run s.next = some ((), s'))
        (hrun : ∀ run, OpaqueRun depth' run s'.stream.tokens →
          OpaqueRun depth (s.stream.current :: run) s'.stream.tokens) :
        s'.AtEnd ∨ ∃ run, s.stream.tokens = run ++ s'.stream.tokens ∧
          OpaqueRun depth run s'.stream.tokens := by
      refine (ih (closed_next hs) h).imp_right ?_
      rintro ⟨run, hr, ho⟩
      refine ⟨s.stream.current :: run, ?_, hrun run ho⟩
      rw [tokens_eq_cons hs hk, List.cons_append]
      exact congrArg _ hr
    obtain ⟨next, hstep⟩ := exists_opaqueStep depth s.stream.current.kind
    rw [hstep.run] at h
    cases hstep with
    | cut hk =>
      cases h
      exact .inl hk
    | stop hd hk =>
      cases h
      subst hd
      exact .inr ⟨[], rfl, .stop hk⟩
    | opening hk => exact go (ne_endOfFile_of_opens_bracket hk) h fun _ => .opening hk
    | closing hd hk =>
      obtain ⟨depth, rfl⟩ := Nat.exists_eq_add_one.mpr hd
      exact go (ne_endOfFile_of_isCloser hk) h fun _ => .closing hk
    | inner hk he hsep => exact go he h fun _ => .inner hk he hsep

theorem run_skipStatement {n depth : Nat} (hs : Token.Closed s.stream.tokens)
    (h : (skipStatement n depth).run s = some ((), s')) :
    ∃ isCut run, s.stream.tokens = run ++ s'.stream.tokens ∧
      SkippedRun isCut depth run s'.stream.tokens := by
  induction n generalizing s depth with
  | zero => cases h
  | succ n ih =>
    have go {depth' : Nat} (hk : s.stream.current.kind ≠ .endOfFile)
        (h : (skipStatement n depth').run s.next = some ((), s'))
        (hrun : ∀ isCut run, s.next.stream.tokens = run ++ s'.stream.tokens →
          SkippedRun isCut depth' run s'.stream.tokens →
          SkippedRun isCut depth (s.stream.current :: run) s'.stream.tokens) :
        ∃ isCut run, s.stream.tokens = run ++ s'.stream.tokens ∧
          SkippedRun isCut depth run s'.stream.tokens := by
      obtain ⟨isCut, run, hr, ho⟩ := ih (closed_next hs) h
      refine ⟨isCut, s.stream.current :: run, ?_, hrun isCut run hr ho⟩
      rw [tokens_eq_cons hs hk, List.cons_append]
      exact congrArg _ hr
    obtain ⟨next, hstep⟩ :=
      exists_skippedStep depth s.stream.current.kind s.next.stream.current
    rw [hstep.run] at h
    cases hstep with
    | cut hk =>
      cases h
      have hn : s'.stream.ahead = [] := hs.eq_nil hk
      refine ⟨true, [], rfl, ?_⟩
      rw [TokenStream.tokens, hn]
      exact .cut rfl hk
    | stop hd hk =>
      cases h
      subst hd
      exact ⟨false, [], rfl, .stop rfl hk⟩
    | semicolon hd hk =>
      cases h
      subst hd
      exact ⟨false, [s.stream.current], tokens_eq_cons hs (by simp [hk]), .semicolon rfl hk⟩
    | block hd hk hu =>
      cases h
      subst hd
      exact ⟨false, [s.stream.current], tokens_eq_cons hs (by simp [hk]), .block rfl hk hu⟩
    | opening hk => exact go (ne_endOfFile_of_opens_bracket hk) h fun _ _ _ => .opening hk
    | closing hk =>
      refine go (ne_endOfFile_of_isCloser ?_) h fun _ _ _ => .closing hk
      rcases hk with hk | hk <;> rw [hk] <;> rfl
    | brace hk hd hu =>
      refine go (by simp [hk]) h fun _ run hr => .brace hk hd fun h1 => ?_
      rw [← hr]
      exact hu h1
    | inner hk he hsep => exact go he h fun _ _ _ => .inner hk he hsep

theorem opens_cases (h : (opensOpaque t || opensSkipped t) = true) :
    t.kind.isMemberName = true ∨ t.kind = .openBrace := by
  simp only [opensOpaque, opensSkipped, Token.isWord, Bool.or_eq_true, Bool.and_eq_true,
    beq_iff_eq] at h
  obtain ((((h | h) | h) | ⟨h, -⟩) | ⟨h, -⟩) | ((h | h) | h) | ⟨h, -⟩ := h
  all_goals rw [h]
  all_goals first | exact .inl rfl | exact .inr rfl

theorem OpaqueRun.head {run rest ts : List Token} (hr : OpaqueRun 0 run rest)
    (h : t :: ts = run ++ rest) (ht : opensOpaque t = true) : run.head?.any opensOpaque = true := by
  cases run with
  | nil =>
    obtain rfl := h
    cases hr with
    | stop hk =>
      rcases opens_cases (by rw [ht, Bool.true_or]) with hm | hm
      · generalize t.kind = kind at hm hk
        cases kind <;> first | cases hm; done | cases hk
      · rw [hm] at hk
        cases hk
  | cons u run =>
    obtain ⟨rfl, -⟩ := List.cons.inj h
    exact ht

theorem SkippedRun.head {isCut : Bool} {run rest ts : List Token}
    (hr : SkippedRun isCut 0 run rest) (h : t :: ts = run ++ rest) (ht : opensSkipped t = true) :
    run.head?.any opensSkipped = true := by
  cases run with
  | nil =>
    obtain rfl := h
    have hk : t.kind = .closeBrace ∨ t.kind = .closeTag ∨ t.kind = .endOfFile := by
      cases hr with
      | stop _ hk => exact hk.imp_right .inl
      | cut _ hk => exact .inr (.inr hk)
    rcases opens_cases (t := t) (by rw [ht, Bool.or_true]) with hm | hm
    · rcases hk with hk | hk | hk <;> rw [hk] at hm <;> cases hm
    · rw [hm] at hk
      simp at hk
  | cons u run =>
    obtain ⟨rfl, -⟩ := List.cons.inj h
    exact ht

theorem SkippedRun.atEnd {depth : Nat} {run ts : List Token}
    (h : SkippedRun true depth run (t :: ts)) : t.kind = .endOfFile := by
  generalize hr : t :: ts = rest at h
  induction h with
  | stop hc | semicolon hc | block hc => cases hc
  | cut _ hk =>
    obtain ⟨rfl, -⟩ := List.cons.inj hr
    exact hk
  | opening _ _ ih | closing _ _ ih | brace _ _ _ _ ih | inner _ _ _ _ ih => exact ih hr

/-- An opaque expression is covered by its run, if the file goes on behind it. -/
theorem movesAt_skippedExpression {n : Nat} (ht : opensOpaque t = true) :
    MovesAt t false (some []) (skippedExpression n start) found := by
  have hskip : MovesAt t false (some []) (skipRun n 0) fun _ => some [] := by
    rintro s rfl r s' hr
    obtain ⟨hl, hc, -⟩ := (@inherited_never false).skipRun _ s rfl r s' hr
    refine ⟨hl, hc, fun hs _ k hk => ⟨k, hk, fun σ => ?_⟩⟩
    rcases run_skipRun hs hr with he | ⟨run, hrun, ho⟩
    · exact .inr ⟨he, nofun⟩
    · refine .inl ⟨[run], ?_⟩
      have hhead := ho.head hrun ht
      rw [hrun]
      exact .opaqueRun hhead ho .done
  exact hskip.bind fun _ => moves_done

/-- A skipped statement is covered by its run, or unfinished at the end of the file. -/
theorem movesAt_skipStatement {n : Nat} (ht : opensSkipped t = true) :
    MovesAt t true (some []) (skipStatement n 0) fun _ => some [] := by
  rintro s rfl r s' hr
  obtain ⟨hl, hc, -⟩ := (@inherited_never true).skipStatement _ s rfl r s' hr
  refine ⟨hl, hc, fun hs _ k hk => ⟨k, hk, fun σ => ?_⟩⟩
  obtain ⟨isCut, run, hrun, hskip⟩ := run_skipStatement hs hr
  have hhead := hskip.head hrun ht
  cases isCut with
  | false =>
    refine .inl ⟨[run], ?_⟩
    rw [hrun]
    exact .skippedRun hhead hskip .done
  | true =>
    have hu : Unfinished s.stream.tokens := ⟨run, _, hrun, hhead, hskip⟩
    exact .inr ⟨hskip.atEnd, fun _ => ⟨[], _, .done, hu⟩⟩

/-! ## Before the end of the file -/

/-- At the end of the file the rule reports something. -/
def Needs (m : Parse α) : Prop := ∀ s r s', m.run s = some (r, s') → s'.Clean → ¬s.AtEnd

/-- An expression has not been cut where something stands behind it. -/
theorem Moves.before (hm : Moves false inp m mid) (hf : ∀ a, Moves true (mid a) (f a) res)
    (hn : ∀ a, (mid a).isSome → Needs (f a)) : Moves true inp (m >>= f) res := by
  intro t s ht r s'' h
  obtain ⟨a, s', hr, hr'⟩ := run_bind_eq_some h
  obtain ⟨hl, hc, hm⟩ := hm t s ht a s' hr
  obtain ⟨hl', hc', hf⟩ := hf a _ s' rfl r s'' hr'
  refine ⟨hl.trans hl', hc ∘ hc', fun hs hc'' k hk => ?_⟩
  have hs' : Token.Closed s'.stream.tokens := hs.of_suffix hl (List.cons_ne_nil _ _)
  obtain ⟨k', hk', hm⟩ := hm hs (hc' hc'') k hk
  obtain ⟨k'', hk'', hf⟩ := hf hs' hc'' k' hk'
  refine ⟨k'', hk'', fun σ => ?_⟩
  have hm : Covered true (k ++ σ, s.stream.tokens) (k' ++ σ) s' :=
    .inl ((hm σ).resolve_right fun h => hn a (hk' ▸ rfl) s' r s'' hr' hc'' h.1)
  exact hm.trans hs' hl' (hf σ)

theorem Needs.bind (hm : Needs m) (hf : ∀ a, Moves true none (f a) fun _ => none) :
    Needs (m >>= f) := by
  intro s r s'' h hc
  obtain ⟨a, s', hr, hr'⟩ := run_bind_eq_some h
  exact hm s a s' hr ((hf a _ s' rfl r s'' hr').2.1 hc)

theorem Needs.map {g : α → β} (hm : Needs m) : Needs (g <$> m) := by
  rw [← bind_pure_comp]
  exact hm.bind fun _ => .pure nofun

theorem needs_accept {f : Bool → Parse β} (hk : kind ≠ .endOfFile) (hf : Needs (f false)) :
    Needs (accept kind >>= f) := by
  intro s r s' h hc he
  rw [StateT.run_bind, run_accept_of_ne (he.trans_ne hk.symm)] at h
  exact hf s r s' h hc he

/-- A node is finished where the file may be over. -/
theorem needs_node {f : NodeId → Parse β} (hf : ∀ i, Needs (f i)) :
    Needs (node payload start >>= f) := by
  intro s r s' h hc he
  obtain ⟨i, s₁, hn, h⟩ := run_bind_eq_some h
  cases hn
  exact hf _ _ r s' h hc he

theorem needs_report : Needs (report fault) := fun _ _ _ hr hc => absurd hc (not_clean_report hr)

theorem needs_expect (hk : kind ≠ .endOfFile) : Needs (discard (expect kind spelling)) := by
  have hr : Needs (report (.missing spelling) >>= fun _ => (pure false : Parse Bool)) :=
    needs_report.bind fun _ => .pure nofun
  exact (needs_accept hk hr).map

theorem needs_expectSemicolon : Needs expectSemicolon := by
  refine needs_accept (by decide) fun s r s' h hc he => ?_
  simp only [Bool.false_eq_true, if_false] at h
  rw [(looks_isAt _).run_bind, if_neg (by rw [beq_iff_eq, he]; decide)] at h
  exact needs_report s r s' h hc he

end PhpAtlas.Grammar
