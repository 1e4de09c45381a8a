import Mathlib.Order.Basic
import Mathlib.Data.Nat.Basic
import PhpAtlas.Proofs.Looks
import PhpAtlas.Proofs.Token.Progress

/-! # Rules that come to an end

A rule fits a number of tokens if it has a result from every state with at most
so many tokens ahead, and leaves a suffix of the tokens. The end of the file is
never passed, so that a token of another kind makes the rest shorter.
-/

namespace PhpAtlas

/-! ## Streams that end -/

/-- The end of the file stands last, and only there. -/
def Token.Closed : List Token → Prop
  | [] => False
  | [t] => t.kind = .endOfFile
  | t :: u :: us => t.kind ≠ .endOfFile ∧ Closed (u :: us)

namespace Token

variable {t : Token} {ts us : List Token}

theorem Closed.ne_nil (h : Closed ts) : ts ≠ [] := by
  rintro rfl
  exact h

theorem Closed.eq_nil (h : Closed (t :: us)) (hk : t.kind = .endOfFile) : us = [] := by
  cases us with
  | nil => rfl
  | cons u us => exact absurd hk h.1

theorem Closed.of_suffix (h : Closed ts) (hs : us <:+ ts) (hn : us ≠ []) : Closed us := by
  induction ts with
  | nil => exact h.elim
  | cons t ts ih =>
    rcases List.suffix_cons_iff.mp hs with rfl | hs
    · exact h
    · cases ts with
      | nil => exact absurd (List.suffix_nil.mp hs) hn
      | cons u ts => exact ih h.2 hs

theorem Scans.closed {inTags : Bool} {place : Cursor} (h : Scans inTags place ts) : Closed ts := by
  induction h with
  | last h => exact h
  | step h rest ih => cases rest with
    | last => exact ⟨h, ih⟩
    | step => exact ⟨h, ih⟩

end Token

namespace TokenStream

/-- The tokens from the current one on. -/
def tokens (s : TokenStream) : List Token := s.current :: s.ahead

def left (s : TokenStream) : Nat := s.ahead.length

variable {s : TokenStream} {t u : Token} {ts : List Token}

theorem current_of_tokens (h : s.tokens = t :: ts) : s.current = t := (List.cons.inj h).1

theorem tokens_next (h : s.tokens = t :: u :: ts) : s.next.tokens = u :: ts := by
  have ha : s.ahead = u :: ts := (List.cons.inj h).2
  simp only [next, tokens, ha]

theorem peek_one (h : s.tokens = t :: u :: ts) : s.peek 1 = u := current_of_tokens (tokens_next h)

theorem tokens_next_suffix (s : TokenStream) : s.next.tokens <:+ s.tokens := by
  unfold next
  split
  · exact List.suffix_refl _
  · next t ts h =>
    rw [tokens, tokens, h]
    exact List.suffix_cons _ _

theorem left_next (h : Token.Closed s.tokens) (hk : s.current.kind ≠ .endOfFile) :
    s.next.left + 1 = s.left := by
  unfold next left
  cases ha : s.ahead with
  | nil => exact absurd (ha ▸ h : Token.Closed [s.current]) hk
  | cons t ts => rfl

theorem closed_ofTokens {ts : List Token} (h : Token.Closed ts) :
    Token.Closed (ofTokens ts).tokens := by
  cases ts with
  | nil => exact absurd rfl h.ne_nil
  | cons t ts => exact ⟨nofun, h⟩

theorem closed_ofSource (source : List Char) : Token.Closed (ofSource source).tokens :=
  closed_ofTokens (Token.scans_ofSource source).closed

theorem left_ofSource_le (source : List Char) : (ofSource source).left ≤ source.length + 1 :=
  (Token.scans_ofSource source).length_le

end TokenStream

namespace Grammar

variable {α β : Type} {s s' s'' : State} {t : Token} {k j : Nat} {kind : TokenKind}

/-! ## Results -/

/-- The rule has a result from `s`, and what it leaves is as `post` says. -/
def Yields (m : Parse α) (s : State) (post : α → State → Prop) : Prop :=
  ∃ a s', m.run s = some (a, s') ∧ post a s'

theorem Yields.pure {a : α} {post : α → State → Prop} (h : post a s) :
    Yields (Pure.pure a) s post :=
  ⟨a, s, rfl, h⟩

theorem Yields.mono {m : Parse α} {p q : α → State → Prop} (hm : Yields m s p)
    (h : ∀ a s', p a s' → q a s') : Yields m s q := by
  obtain ⟨a, s', hr, hp⟩ := hm
  exact ⟨a, s', hr, h a s' hp⟩

theorem Yields.bind {m : Parse α} {f : α → Parse β} {p : α → State → Prop}
    {q : β → State → Prop} (hm : Yields m s p) (hf : ∀ a s', p a s' → Yields (f a) s' q) :
    Yields (m >>= f) s q := by
  obtain ⟨a, s', hr, hp⟩ := hm
  obtain ⟨b, s'', hr', hq⟩ := hf a s' hp
  refine ⟨b, s'', ?_, hq⟩
  rw [StateT.run_bind, hr]
  exact hr'

theorem Yields.map {m : Parse α} {f : α → β} {q : β → State → Prop}
    (hm : Yields m s fun a s' => q (f a) s') : Yields (f <$> m) s q := by
  obtain ⟨a, s', hr, hp⟩ := hm
  refine ⟨f a, s', ?_, hp⟩
  rw [StateT.run_map, hr]
  rfl

/-! ## Fitting -/

/-- The stream ends after at most `k` more tokens. -/
def Ready (k : Nat) (s : State) : Prop := Token.Closed s.stream.tokens ∧ s.stream.left ≤ k

/-- The other state is at a later place, or at the same. -/
def Later (s s' : State) : Prop := s'.stream.tokens <:+ s.stream.tokens

theorem Later.refl (s : State) : Later s s := List.suffix_refl _

theorem Later.trans (h : Later s s') (h' : Later s' s'') : Later s s'' := List.IsSuffix.trans h' h

theorem Later.of_eq (h : s'.stream.tokens = s.stream.tokens) : Later s s' :=
  ⟨[], h⟩

theorem Later.left_le (h : Later s s') : s'.stream.left ≤ s.stream.left :=
  Nat.le_of_succ_le_succ h.length_le

/-- At a later place the stream is another one only if it is shorter. -/
theorem Later.lt_or_eq (h : Later s s') :
    s'.stream.left < s.stream.left ∨ s'.stream.current = s.stream.current := by
  rcases Nat.lt_or_eq_of_le h.left_le with hlt | heq
  · exact .inl hlt
  · exact .inr (List.cons.inj (h.eq_of_length (congrArg Nat.succ heq))).1

theorem Ready.later (hs : Ready k s) (h : Later s s') : Ready k s' :=
  ⟨hs.1.of_suffix h (List.cons_ne_nil _ _), h.left_le.trans hs.2⟩

theorem Ready.of_lt (hs : Ready k s) (h : Later s s') (hlt : s'.stream.left < s.stream.left) :
    Ready (k - 1) s' :=
  ⟨(hs.later h).1, by have := hs.2; omega⟩

/-- A token before the end of the file has another one ahead. -/
theorem Ready.pos (hs : Ready k s) (h : s.stream.current.kind ≠ .endOfFile) : 0 < k := by
  have := TokenStream.left_next hs.1 h
  have := hs.2
  omega

/-- With the token `t` before at most `k` others, the rule comes to an end. -/
def FitsAt (t : Token) (k : Nat) (m : Parse α) : Prop :=
  ∀ s, Ready k s → s.stream.current = t → Yields m s fun _ s' => Later s s'

/-- Before at most `k` tokens, the rule comes to an end. -/
def Fits (k : Nat) (m : Parse α) : Prop := ∀ t, FitsAt t k m

/-- The rule comes to an end, and has then read the token `t`. -/
def SpendsAt (t : Token) (k : Nat) (m : Parse α) : Prop :=
  ∀ s, Ready k s → s.stream.current = t →
    Yields m s fun _ s' => Later s s' ∧ s'.stream.left < s.stream.left

variable {m : Parse α} {f : α → Parse β}

theorem SpendsAt.fitsAt (h : SpendsAt t k m) : FitsAt t k m :=
  fun s hs ht => (h s hs ht).mono fun _ _ => And.left

theorem Fits.yields (h : Fits k m) (hs : Ready k s) : Yields m s fun _ s' => Later s s' :=
  h _ s hs rfl

theorem Fits.mono (h : Fits k m) (hj : j ≤ k) : Fits j m :=
  fun t s hs ht => h t s ⟨hs.1, hs.2.trans hj⟩ ht

theorem Fits.pure {a : α} : Fits k (Pure.pure a) := fun _ s _ _ => .pure (Later.refl s)

theorem FitsAt.bind (hm : FitsAt t k m) (hf : ∀ a, Fits k (f a)) : FitsAt t k (m >>= f) :=
  fun s hs ht => (hm s hs ht).bind fun a _ h =>
    ((hf a).yields (hs.later h)).mono fun _ _ h' => h.trans h'

theorem Fits.bind (hm : Fits k m) (hf : ∀ a, Fits k (f a)) : Fits k (m >>= f) :=
  fun t => (hm t).bind hf

theorem SpendsAt.bind (hm : SpendsAt t k m) (hf : 0 < k → ∀ a, Fits (k - 1) (f a)) :
    SpendsAt t k (m >>= f) :=
  fun s hs ht => (hm s hs ht).bind fun a _ h =>
    have hk : 0 < k := (Nat.zero_le _).trans_lt (h.2.trans_le hs.2)
    ((hf hk a).yields (hs.of_lt h.1 h.2)).mono fun _ _ h' =>
      ⟨h.1.trans h', h'.left_le.trans_lt h.2⟩

theorem FitsAt.map {g : α → β} (hm : FitsAt t k m) : FitsAt t k (g <$> m) :=
  fun s hs ht => Yields.map (hm s hs ht)

theorem Fits.map {g : α → β} (hm : Fits k m) : Fits k (g <$> m) := fun t => (hm t).map

theorem SpendsAt.map {g : α → β} (hm : SpendsAt t k m) : SpendsAt t k (g <$> m) :=
  fun s hs ht => (hm s hs ht).map

theorem Fits.discard (hm : Fits k m) : Fits k (Functor.discard m) := hm.map

theorem Fits.ite {p : Prop} [Decidable p] {m₁ m₂ : Parse α} (h₁ : p → Fits k m₁)
    (h₂ : ¬p → Fits k m₂) : Fits k (if p then m₁ else m₂) := by
  split
  · next h => exact h₁ h
  · next h => exact h₂ h

/-! ## What every rule is made of -/

variable {g : State → α}

theorem Looks.yields {post : β → State → Prop} (hm : Looks m g) (h : Yields (f (g s)) s post) :
    Yields (m >>= f) s post := by
  obtain ⟨a, s', hr, hp⟩ := h
  exact ⟨a, s', (hm.run_bind f s).trans hr, hp⟩

theorem FitsAt.look (hm : Looks m g) (h : ∀ s, s.stream.current = t → FitsAt t k (f (g s))) :
    FitsAt t k (m >>= f) :=
  fun s hs ht => hm.yields (h s ht s hs ht)

theorem Looks.fits (hm : Looks m g) : Fits k m := fun _ s _ _ => ⟨g s, s, hm s, .refl s⟩

theorem FitsAt.token {f : Token → Parse β} (h : FitsAt t k (f t)) : FitsAt t k (token >>= f) :=
  .look looks_token fun _ hs => hs ▸ h

theorem FitsAt.isAt {f : Bool → Parse β} (h : FitsAt t k (f (t.kind == kind))) :
    FitsAt t k (isAt kind >>= f) :=
  .look (looks_isAt kind) fun _ hs => hs ▸ h

theorem Fits.of_tokens (h : ∀ s, Yields m s fun _ s' => s'.stream.tokens = s.stream.tokens) :
    Fits k m :=
  fun _ s _ _ => (h s).mono fun _ _ => .of_eq

theorem fits_modify {g : State → State} (h : ∀ s, (g s).stream.tokens = s.stream.tokens) :
    Fits k (modify g : Parse PUnit) :=
  .of_tokens fun s => ⟨_, g s, rfl, h s⟩

theorem fits_report {fault : SyntaxFault} : Fits k (report fault) :=
  fits_modify fun s => by
    dsimp only
    split <;> rfl

theorem fits_takeDoc : Fits k takeDoc :=
  .of_tokens fun s => ⟨s.stream.doc, _, rfl, rfl⟩

theorem FitsAt.takeDoc {f : Option String → Parse β} (h : ∀ doc, FitsAt t k (f doc)) :
    FitsAt t k (takeDoc >>= f) :=
  fun s hs ht => h s.stream.doc { s with stream := s.stream.dropDoc } hs ht

variable {payload : Payload (Option NodeId)} {start : Nat} {spelling part : String}

theorem fits_node : Fits k (node payload start) :=
  .of_tokens fun _ => ⟨_, _, rfl, rfl⟩

theorem fits_done : Fits k (done payload start) :=
  fits_node.bind fun _ => .pure

theorem fits_fail : Fits k (fail part) := fits_report.bind fun _ => .pure

theorem fits_advance : Fits k advance :=
  fun _ s _ _ => ⟨(), _, rfl, s.stream.tokens_next_suffix⟩

theorem spendsAt_advance (h : t.kind ≠ .endOfFile) : SpendsAt t k advance := by
  rintro s hs rfl
  refine ⟨(), _, rfl, s.stream.tokens_next_suffix, ?_⟩
  have := TokenStream.left_next hs.1 h
  show s.stream.next.left < s.stream.left
  omega

/-- Reading a token that is not the end of the file leaves less for what comes next. -/
theorem FitsAt.advance {m : Parse α} (h : t.kind ≠ .endOfFile) (hm : 0 < k → Fits (k - 1) m) :
    FitsAt t k (Grammar.advance >>= fun _ => m) :=
  ((spendsAt_advance h).bind fun hk _ => hm hk).fitsAt

/-- The same at any token, as nothing is ahead of the end of the file. -/
theorem Fits.advance {m : Parse α} (hm : Fits (k - 1) m) :
    Fits k (Grammar.advance >>= fun _ => m) := by
  intro t
  by_cases ht : t.kind = .endOfFile
  · rintro s hs rfl
    have ha : s.stream.left = 0 := by
      rw [TokenStream.left, hs.1.eq_nil ht, List.length_nil]
    have h0 : Fits 0 (Grammar.advance >>= fun _ => m) :=
      fits_advance.bind fun _ => hm.mono (Nat.zero_le _)
    exact h0.yields ⟨hs.1, ha.le⟩
  · exact .advance ht fun _ => hm

theorem FitsAt.of_pos (ht : t.kind ≠ .endOfFile) (h : 0 < k → FitsAt t k m) : FitsAt t k m :=
  fun s hs hc => h (hs.pos (hc ▸ ht)) s hs hc

/-- An accepted token has been read, and otherwise nothing has been. -/
theorem yields_accept (h : kind ≠ .endOfFile) (hs : Ready k s) :
    Yields (accept kind) s fun b s' =>
      b = true ∧ Later s s' ∧ s'.stream.left < s.stream.left ∨
        b = false ∧ s.stream.current.kind ≠ kind ∧ s' = s := by
  refine (looks_isAt kind).yields ?_
  split
  · next hb =>
    have ht : s.stream.current.kind ≠ .endOfFile := eq_of_beq hb ▸ h
    exact (spendsAt_advance ht s hs rfl).bind fun _ _ hl => .pure (.inl ⟨rfl, hl⟩)
  · next hb => exact .pure (.inr ⟨rfl, fun hk => hb (beq_iff_eq.mpr hk), rfl⟩)

theorem SpendsAt.accept {f : Bool → Parse β} (ht : t.kind = kind) (h : kind ≠ .endOfFile)
    (hf : 0 < k → Fits (k - 1) (f true)) : SpendsAt t k (accept kind >>= f) := by
  intro s hs hc
  refine (yields_accept h hs).bind fun b s' hb => ?_
  rcases hb with ⟨rfl, hl, hlt⟩ | ⟨-, hne, -⟩
  · have hk : 0 < k := (Nat.zero_le _).trans_lt (hlt.trans_le hs.2)
    refine ((hf hk).yields (hs.of_lt hl hlt)).mono fun _ _ hl' => ?_
    exact ⟨hl.trans hl', hl'.left_le.trans_lt hlt⟩
  · exact absurd (hc ▸ ht) hne

/-- Accepting a token leaves less for what comes next. -/
theorem FitsAt.accept {f : Bool → Parse β} (h : kind ≠ .endOfFile)
    (h₁ : 0 < k → Fits (k - 1) (f true)) (h₂ : FitsAt t k (f false)) :
    FitsAt t k (accept kind >>= f) := by
  intro s hs hc
  refine (yields_accept h hs).bind fun b s' hb => ?_
  rcases hb with ⟨rfl, hl, hlt⟩ | ⟨rfl, -, rfl⟩
  · have hk : 0 < k := (Nat.zero_le _).trans_lt (hlt.trans_le hs.2)
    exact ((h₁ hk).yields (hs.of_lt hl hlt)).mono fun _ _ hl' => hl.trans hl'
  · exact h₂ _ hs hc

theorem fits_accept : Fits k (accept kind) := by
  intro t
  refine .isAt ?_
  refine Fits.ite (fun _ => fits_advance.bind fun _ => .pure) (fun _ => .pure) t

theorem fits_expect : Fits k (expect kind spelling) :=
  fits_accept.bind fun _ => .ite (fun _ => .pure) fun _ =>
    fits_report.bind fun _ => .pure

theorem spendsAt_expect (ht : t.kind = kind) (h : kind ≠ .endOfFile) :
    SpendsAt t k (expect kind spelling) :=
  .accept ht h fun _ => .ite (fun _ => .pure) fun hf => absurd rfl hf

theorem fits_expectSemicolon : Fits k expectSemicolon :=
  fits_accept.bind fun _ => .ite (fun _ => .pure) fun _ =>
    (looks_isAt _).fits.bind fun _ => .ite (fun _ => .pure) fun _ => fits_report

theorem Fits.nested {recover : Parse Unit} {m : Parse (Option NodeId)} (hr : Fits k recover)
    (hm : Fits k m) : Fits k (nested recover m) := by
  have hd (d : Nat → Nat) : Fits k (modify fun s => { s with depth := d s.depth } : Parse PUnit) :=
    fits_modify fun _ => rfl
  unfold Grammar.nested
  refine (hd (· + 1)).bind fun _ => ?_
  apply looks_get.fits.bind
  intro s
  refine .ite (fun _ => ?_) fun _ => ?_
  · refine fits_report.bind fun _ => (hd (· - 1)).bind fun _ => ?_
    exact hr.bind fun _ => .pure
  · exact hm.bind fun _ => (hd (· - 1)).bind fun _ => .pure

/-! ## Loops

A loop is a family of rules with a limit on its rounds. In one round it is left,
or a token is read and the family goes on with a limit that is lower by one.
-/

section Loops

variable {ι : Type} {L : ι → Nat → Parse α} {M : Nat → Parse α} {s₀ : State} {i : ι} {n : Nat}

/-- What the rest `M` of a round that began at `s₀` comes to from `s`. -/
def Round (L : ι → Nat → Parse α) (s₀ : State) (M : Nat → Parse α) (s : State) : Prop :=
  (∃ a s', Later s₀ s' ∧ ∀ n, (M n).run s = some (a, s')) ∨
  ∃ i f s', Later s₀ s' ∧ s'.stream.left < s₀.stream.left ∧
    ∀ n, (M n).run s = (f <$> L i n).run s'

/-- Before at most `k` tokens, a round of the loop is the last one or reads a token. -/
def Turns (k : Nat) (L : ι → Nat → Parse α) : Prop :=
  ∀ i s, Ready k s → Round L s (fun n => L i (n + 1)) s

theorem Turns.mono (h : Turns k L) (hj : j ≤ k) : Turns j L :=
  fun i s hs => h i s ⟨hs.1, hs.2.trans hj⟩

/-- The rounds come to an end, as the tokens do. -/
theorem Turns.fits (h : Turns k L) (hn : k < n) : Fits k (L i n) := by
  induction n generalizing k i with
  | zero => exact absurd hn (Nat.not_lt_zero _)
  | succ n ih =>
    rintro t s hs -
    rcases h i s hs with ⟨a, s', hl, hr⟩ | ⟨i', f, s', hl, hlt, hr⟩
    · exact ⟨a, s', hr n, hl⟩
    · have hk : 0 < k := (Nat.zero_le _).trans_lt (hlt.trans_le hs.2)
      have hf := (ih (i := i') (h.mono (Nat.sub_le k 1)) (by omega)).map (g := f)
      obtain ⟨b, s'', hr', hl'⟩ := hf.yields (hs.of_lt hl hlt)
      exact ⟨b, s'', (hr n).trans hr', hl.trans hl'⟩

theorem Round.leave (hl : Later s₀ s) (h : Yields m s fun _ s' => Later s s') :
    Round L s₀ (fun _ => m) s := by
  obtain ⟨a, s', hr, hl'⟩ := h
  exact .inl ⟨a, s', hl.trans hl', fun _ => hr⟩

theorem Round.bind {m : Parse β} {f : Nat → β → Parse α} {post : β → State → Prop}
    (hm : Yields m s post) (hf : ∀ a s', post a s' → Round L s₀ (fun n => f n a) s') :
    Round L s₀ (fun n => m >>= f n) s := by
  obtain ⟨a, s', hr, hp⟩ := hm
  have hb (n : Nat) : (m >>= f n).run s = (f n a).run s' := by
    rw [StateT.run_bind, hr]
    rfl
  rcases hf a s' hp with ⟨b, s'', hl, hr'⟩ | ⟨i, g, s'', hl, hlt, hr'⟩
  · exact .inl ⟨b, s'', hl, fun n => (hb n).trans (hr' n)⟩
  · exact .inr ⟨i, g, s'', hl, hlt, fun n => (hb n).trans (hr' n)⟩

theorem Round.look {m : Parse β} {g : State → β} {f : Nat → β → Parse α} (hm : Looks m g)
    (h : Round L s₀ (fun n => f n (g s)) s) : Round L s₀ (fun n => m >>= f n) s :=
  have hy : Yields m s fun a s' => a = g s ∧ s' = s := ⟨_, _, hm s, rfl, rfl⟩
  .bind hy fun _ _ ⟨ha, hs⟩ => ha ▸ hs ▸ h

theorem Round.ite {c : Prop} [Decidable c] {M₁ M₂ : Nat → Parse α} (h₁ : c → Round L s₀ M₁ s)
    (h₂ : ¬c → Round L s₀ M₂ s) : Round L s₀ (fun n => if c then M₁ n else M₂ n) s := by
  split
  · next h => exact h₁ h
  · next h => exact h₂ h

theorem Round.again (f : α → α) (hl : Later s₀ s) (hlt : s.stream.left < s₀.stream.left) :
    Round L s₀ (fun n => L i n >>= fun r => Pure.pure (f r)) s :=
  .inr ⟨i, f, s, hl, hlt, fun n => by simp only [bind_pure_comp]⟩

/-- Places in a round before at most `k` tokens from which the rest of it is as it should be. -/
def RoundFrom (k : Nat) (L : ι → Nat → Parse α) (p : State → State → Prop) (M : Nat → Parse α) :
    Prop :=
  ∀ s₀ s, Ready k s₀ → Later s₀ s → p s₀ s → Round L s₀ M s

/-- Somewhere in the round. -/
def Anywhere (_ _ : State) : Prop := True

/-- Before the token `t`. -/
def At (t : Token) (_ s : State) : Prop := s.stream.current = t

/-- After a token of the round has been read. -/
def Spent (s₀ s : State) : Prop := s.stream.left < s₀.stream.left

variable {p q : State → State → Prop}

theorem Turns.of_round (h : ∀ i, RoundFrom k L Anywhere fun n => L i (n + 1)) : Turns k L :=
  fun i s hs => h i s s hs (.refl s) trivial

theorem RoundFrom.leave (hm : Fits k m) : RoundFrom k L p fun _ => m :=
  fun _ _ hs hl _ => .leave hl (hm.yields (hs.later hl))

theorem RoundFrom.bind {m : Parse β} {f : Nat → β → Parse α} (hm : Fits k m)
    (hf : ∀ a, RoundFrom k L Anywhere fun n => f n a) : RoundFrom k L p fun n => m >>= f n :=
  fun _ _ hs hl _ => .bind (hm.yields (hs.later hl)) fun a _ hl' =>
    hf a _ _ hs (hl.trans hl') trivial

/-- What has been read stays read, and is not ahead of the rest. -/
theorem RoundFrom.next {m : Parse β} {f : Nat → β → Parse α} (hm : 0 < k → Fits (k - 1) m)
    (hf : ∀ a, RoundFrom k L Spent fun n => f n a) : RoundFrom k L Spent fun n => m >>= f n :=
  fun _ _ hs hl hlt =>
    have hk : 0 < k := (Nat.zero_le _).trans_lt (hlt.trans_le hs.2)
    .bind ((hm hk).yields (hs.of_lt hl hlt)) fun a _ hl' =>
      hf a _ _ hs (hl.trans hl') (hl'.left_le.trans_lt hlt)

theorem RoundFrom.ite {c : Prop} [Decidable c] {M₁ M₂ : Nat → Parse α}
    (h₁ : c → RoundFrom k L p M₁) (h₂ : ¬c → RoundFrom k L p M₂) :
    RoundFrom k L p fun n => if c then M₁ n else M₂ n :=
  fun s₀ s hs hl hp => .ite (fun hc => h₁ hc s₀ s hs hl hp) fun hc => h₂ hc s₀ s hs hl hp

theorem RoundFrom.token {f : Nat → Token → Parse α}
    (h : ∀ t, RoundFrom k L (At t) fun n => f n t) :
    RoundFrom k L p fun n => Grammar.token >>= f n :=
  fun s₀ s hs hl _ => .look looks_token (h _ s₀ s hs hl rfl)

theorem RoundFrom.isAt {f : Nat → Bool → Parse α}
    (h : ∀ t, RoundFrom k L (At t) fun n => f n (t.kind == kind)) :
    RoundFrom k L p fun n => Grammar.isAt kind >>= f n :=
  fun s₀ s hs hl _ => .look (looks_isAt kind) (h _ s₀ s hs hl rfl)

theorem RoundFrom.look {m : Parse β} {g : State → β} {f : Nat → β → Parse α} (hm : Looks m g)
    (h : ∀ a, RoundFrom k L p fun n => f n a) : RoundFrom k L p fun n => m >>= f n :=
  fun s₀ s hs hl hp => .look hm (h _ s₀ s hs hl hp)

theorem RoundFrom.advance (ht : t.kind ≠ .endOfFile) (h : RoundFrom k L Spent M) :
    RoundFrom k L (At t) fun n => Grammar.advance >>= fun _ => M n :=
  fun s₀ s hs hl hc => .bind (spendsAt_advance ht s (hs.later hl) hc) fun _ s' hs' =>
    h s₀ s' hs (hl.trans hs'.1) (hs'.2.trans_le hl.left_le)

theorem RoundFrom.accept {f : Nat → Bool → Parse α} (hk : kind ≠ .endOfFile)
    (h₁ : RoundFrom k L Spent fun n => f n true) (h₂ : RoundFrom k L p fun n => f n false) :
    RoundFrom k L p fun n => Grammar.accept kind >>= f n := by
  intro s₀ s hs hl hp
  refine .bind (yields_accept hk (hs.later hl)) fun b s' hb => ?_
  rcases hb with ⟨rfl, hl', hlt⟩ | ⟨rfl, -, rfl⟩
  · exact h₁ _ _ hs (hl.trans hl') (hlt.trans_le hl.left_le)
  · exact h₂ _ _ hs hl hp

theorem RoundFrom.again (f : α → α) :
    RoundFrom k L Spent fun n => L i n >>= fun r => Pure.pure (f r) :=
  fun _ _ _ hl hlt => .again f hl hlt

theorem RoundFrom.goOn : RoundFrom k L Spent (L i) :=
  fun s₀ s _ hl hlt => .inr ⟨i, id, s, hl, hlt, fun n => by rw [id_map]⟩

end Loops

end Grammar

end PhpAtlas
