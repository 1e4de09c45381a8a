import Mathlib.Data.List.Induction
import PhpAtlas.Proofs.Brackets.Opaque

/-! # Partners of brackets

Where brackets match, each of them has a partner. A statement or an expression
that is skipped in a bracket ends before the bracket is closed, and has the
partners of all its brackets: the number that it counts is how many closing
brackets are awaited.
-/

namespace PhpAtlas

namespace Token

variable {t : Token} {ts front back run : List Token} {σ τ ρ : List TokenKind} {c : TokenKind}

theorem awaited_concat : awaited (ts ++ [t]) σ = some τ ↔
    ∃ υ, awaited ts σ = some υ ∧ t.kind.Awaits υ τ := by
  induction ts generalizing σ with
  | nil => simp [awaited, TokenKind.await_eq_some_iff]
  | cons u ts ih =>
    rw [List.cons_append, awaited_cons]
    simp only [ih, awaited_cons]
    constructor
    · rintro ⟨υ, hu, υ', ht, h⟩
      exact ⟨υ', ⟨υ, hu, ht⟩, h⟩
    · rintro ⟨υ', ⟨υ, hu, ht⟩, h⟩
      exact ⟨υ, hu, υ', ht, h⟩

/-- A bracket that is awaited is closed, and what is awaited before it is closed first. -/
theorem exists_closer (h : awaited ts (ρ ++ c :: σ) = some []) : ∃ inner u back,
    ts = inner ++ u :: back ∧ u.kind = c ∧ awaited inner ρ = some [] := by
  induction ts generalizing ρ with
  | nil => simp [awaited] at h
  | cons t ts ih =>
    obtain ⟨υ, ht, h⟩ := awaited_cons.mp h
    have go {ρ' : List TokenKind} (h : awaited ts (ρ' ++ c :: σ) = some [])
        (hρ : t.kind.Awaits ρ ρ') : ∃ inner u back,
        t :: ts = inner ++ u :: back ∧ u.kind = c ∧ awaited inner ρ = some [] := by
      obtain ⟨inner, u, back, rfl, hu, hi⟩ := ih h
      exact ⟨t :: inner, u, back, rfl, hu, awaited_cons.mpr ⟨ρ', hρ, hi⟩⟩
    generalize hσ : ρ ++ c :: σ = all at ht
    cases ht with
    | @opening _ closer hc =>
      subst hσ
      rw [← List.cons_append] at h
      exact go h (.opening hc)
    | other hk =>
      subst hσ
      exact go h (.other hk)
    | closing hk =>
      cases ρ with
      | nil =>
        obtain ⟨rfl, -⟩ := List.cons.inj hσ
        exact ⟨[], t, ts, rfl, rfl, rfl⟩
      | cons k ρ =>
        obtain ⟨rfl, rfl⟩ := List.cons.inj hσ
        exact go h (.closing hk)

/-- A bracket that is awaited has been opened, and what is awaited before it was opened later. -/
theorem exists_opener (h : awaited ts [] = some (ρ ++ c :: σ)) : ∃ front o inner,
    ts = front ++ o :: inner ∧ o.kind.closer? = some c ∧ awaited inner [] = some ρ := by
  induction ts using List.reverseRecOn generalizing ρ with
  | nil => simp [awaited] at h
  | append_singleton ts t ih =>
    obtain ⟨υ, h, ht⟩ := awaited_concat.mp h
    have go {ρ' : List TokenKind} (h : awaited ts [] = some (ρ' ++ c :: σ))
        (hρ : t.kind.Awaits ρ' ρ) : ∃ front o inner,
        ts ++ [t] = front ++ o :: inner ∧ o.kind.closer? = some c ∧ awaited inner [] = some ρ := by
      obtain ⟨front, o, inner, rfl, ho, hi⟩ := ih h
      refine ⟨front, o, inner ++ [t], ?_, ho, awaited_concat.mpr ⟨ρ', hi, hρ⟩⟩
      rw [List.append_assoc, List.cons_append]
    generalize hσ : ρ ++ c :: σ = all at ht
    cases ht with
    | other hk =>
      subst hσ
      exact go h (.other hk)
    | closing hk =>
      subst hσ
      rw [← List.cons_append] at h
      exact go h (.closing hk)
    | opening hc =>
      cases ρ with
      | nil =>
        obtain ⟨rfl, -⟩ := List.cons.inj hσ
        exact ⟨ts, t, [], rfl, hc, rfl⟩
      | cons k ρ =>
        obtain ⟨rfl, rfl⟩ := List.cons.inj hσ
        exact go h (.opening hc)

/-- Every bracket has its partner: between the two all brackets match. -/
structure Paired (ts : List Token) : Prop where
  opening : ∀ front t back closer, ts = front ++ t :: back → t.kind.closer? = some closer →
    ∃ inner u after, back = inner ++ u :: after ∧ u.kind = closer ∧ WellBracketed inner
  closing : ∀ front t back, ts = front ++ t :: back → t.kind.isCloser = true →
    ∃ before o inner, front = before ++ o :: inner ∧ o.kind.closer? = some t.kind ∧
      WellBracketed inner

theorem awaited_of_append (h : awaited (front ++ back) σ = some τ) :
    ∃ υ, awaited front σ = some υ ∧ awaited back υ = some τ := by
  induction front generalizing σ with
  | nil => exact ⟨σ, rfl, h⟩
  | cons t front ih =>
    obtain ⟨υ, ht, h⟩ := awaited_cons.mp h
    obtain ⟨υ', hf, hb⟩ := ih h
    exact ⟨υ', awaited_cons.mpr ⟨υ, ht, hf⟩, hb⟩

theorem WellBracketed.paired (h : WellBracketed ts) : Paired ts where
  opening front t back closer hts ht := by
    obtain ⟨σ, -, h⟩ := awaited_of_append (hts ▸ h)
    obtain ⟨υ, hυ, h⟩ := awaited_cons.mp h
    cases hυ with
    | opening hc =>
      obtain rfl := Option.some.inj (ht.symm.trans hc)
      have h : Token.awaited back ([] ++ closer :: σ) = some [] := h
      exact exists_closer h
    | closing hk => cases hkind : t.kind <;> simp [hkind, TokenKind.closer?, TokenKind.isCloser] at ht hk
    | other hk => simp [TokenKind.isBracket, ht] at hk
  closing front t back hts ht := by
    obtain ⟨σ, hf, h⟩ := awaited_of_append (hts ▸ h)
    obtain ⟨υ, hυ, -⟩ := awaited_cons.mp h
    cases hυ with
    | opening hc => cases hkind : t.kind <;> simp [hkind, TokenKind.closer?, TokenKind.isCloser] at ht hc
    | closing =>
      have hf : Token.awaited front [] = some ([] ++ t.kind :: υ) := hf
      exact exists_opener hf
    | other hk => simp [TokenKind.isBracket, ht] at hk

end Token

namespace Grammar

open TokenStream (current_of_tokens tokens_next)

variable {s : State} {t u : Token} {run rest taken left : List Token} {σ τ : List TokenKind}
variable {m m' : Nat → Parse Unit}

/-! ## Rules that skip -/

/-- The rule passes over the first tokens of the run, after which no closing bracket is awaited any
more, unless the steps that it is given are used up before. -/
def PassesWithin (m : Nat → Parse Unit) (s : State) (σ : List TokenKind) (run : List Token) : Prop :=
  ∃ taken left, run = taken ++ left ∧ Token.awaited taken σ = some [] ∧
    ∀ n, (m n).run s = some ((), s.passed taken.length) ∨ n ≤ taken.length ∧ (m n).run s = none

theorem passesWithin_stop (h : ∀ n, (m (n + 1)).run s = some ((), s)) (h0 : (m 0).run s = none) :
    PassesWithin m s [] run := by
  refine ⟨[], run, rfl, rfl, fun n => ?_⟩
  cases n with
  | zero => exact .inr ⟨le_rfl, h0⟩
  | succ n => exact .inl (h n)

/-- The token is read, and the rest of the rule passes over more of the run. -/
theorem PassesWithin.read (h : PassesWithin m' s.next τ run) (ht : t.kind.Awaits σ τ)
    (hm : ∀ n, (m (n + 1)).run s = (m' n).run s.next) (h0 : (m 0).run s = none) :
    PassesWithin m s σ (t :: run) := by
  obtain ⟨taken, left, rfl, ha, h⟩ := h
  refine ⟨t :: taken, left, rfl, Token.awaited_cons.mpr ⟨τ, ht, ha⟩, fun n => ?_⟩
  cases n with
  | zero => exact .inr ⟨Nat.zero_le _, h0⟩
  | succ n =>
    rw [hm n]
    exact (h n).imp id fun ⟨hn, h⟩ => ⟨Nat.succ_le_succ hn, h⟩

theorem passesWithin_pure (s : State) (run : List Token) :
    PassesWithin (fun _ => pure ()) s [] run :=
  ⟨[], run, rfl, rfl, fun _ => .inl rfl⟩

theorem passesWithin_skipRun (hs : s.stream.tokens = run ++ u :: rest)
    (hr : Token.awaited run σ = some []) (he : ∀ t ∈ run, t.kind ≠ .endOfFile)
    (hu : u.kind = .endOfFile ∨ u.kind.isCloser = true) :
    PassesWithin (fun n => skipRun n σ.length) s σ run := by
  induction run generalizing s σ with
  | nil =>
    cases hr
    obtain rfl := current_of_tokens hs
    refine passesWithin_stop ?_ rfl
    rcases hu with hk | hk
    · exact (OpaqueStep.cut hk).run
    · exact (OpaqueStep.stop rfl (by rw [hk, Bool.or_true])).run
  | cons t run ih =>
    obtain rfl := current_of_tokens hs
    obtain ⟨hne, he⟩ := List.forall_mem_cons.mp he
    obtain ⟨τ, ht, hr⟩ := Token.awaited_cons.mp hr
    have hrest := ih (tokens_next_append hs) hr he
    cases ht with
    | opening hc => exact hrest.read (.opening hc) (OpaqueStep.opening (by rw [hc]; rfl)).run rfl
    | closing hk =>
      exact hrest.read (.closing hk) (OpaqueStep.closing (Nat.succ_pos _) hk).run rfl
    | other hk =>
      by_cases hsep : σ.length = 0 ∧ s.stream.current.kind.isSeparator = true
      · obtain ⟨h0, hsep⟩ := hsep
        obtain rfl := List.eq_nil_of_length_eq_zero h0
        exact passesWithin_stop (OpaqueStep.stop rfl (by rw [hsep, Bool.true_or])).run rfl
      · refine hrest.read (.other hk) (OpaqueStep.inner hk hne fun h0 => ?_).run rfl
        simpa [h0] using hsep

theorem passesWithin_skipStatement (hs : s.stream.tokens = run ++ u :: rest)
    (hr : Token.awaited run σ = some []) (he : ∀ t ∈ run, t.kind ≠ .endOfFile)
    (hu : u.kind = .endOfFile ∨ u.kind = .closeBrace) :
    PassesWithin (fun n => skipStatement n σ.length) s σ run := by
  induction run generalizing s σ with
  | nil =>
    cases hr
    obtain rfl := current_of_tokens hs
    refine passesWithin_stop ?_ rfl
    rcases hu with hk | hk
    · exact (SkippedStep.cut hk).run
    · exact (SkippedStep.stop rfl (.inl hk)).run
  | cons t run ih =>
    obtain rfl := current_of_tokens hs
    obtain ⟨hne, he⟩ := List.forall_mem_cons.mp he
    obtain ⟨τ, ht, hr⟩ := Token.awaited_cons.mp hr
    have hrest := ih (tokens_next_append hs) hr he
    cases ht with
    | opening hc => exact hrest.read (.opening hc) (SkippedStep.opening (by rw [hc]; rfl)).run rfl
    | closing hk =>
      by_cases hb : s.stream.current.kind = .closeBrace
      · -- the last block ends the statement unless a word behind it goes on
        by_cases hlast : τ = [] ∧ continues s.next.stream.current = false
        · obtain ⟨rfl, hlast⟩ := hlast
          exact (passesWithin_pure s.next run).read (.closing hk) (SkippedStep.block rfl hb hlast).run
            rfl
        · refine hrest.read (.closing hk)
            (SkippedStep.brace hb (Nat.succ_pos _) fun h1 => ?_).run rfl
          have hτ : τ = [] := List.eq_nil_of_length_eq_zero (Nat.succ.inj h1)
          simpa [hτ] using hlast
      · exact hrest.read (.closing hk) (SkippedStep.closing (closer_cases hk hb)).run rfl
    | other hk =>
      by_cases hlast : σ = [] ∧ s.stream.current.kind = .semicolon
      · obtain ⟨rfl, hsemi⟩ := hlast
        exact (passesWithin_pure s.next run).read (.other hk) (SkippedStep.semicolon rfl hsemi).run
          rfl
      by_cases hstop : σ = [] ∧ s.stream.current.kind = .closeTag
      · obtain ⟨rfl, htag⟩ := hstop
        exact passesWithin_stop (SkippedStep.stop rfl (.inr htag)).run rfl
      · refine hrest.read (.other hk) (SkippedStep.inner hk hne fun h0 => ?_).run rfl
        have hσ : σ = [] := List.eq_nil_of_length_eq_zero h0
        exact ⟨fun hk => hlast ⟨hσ, hk⟩, fun hk => hstop ⟨hσ, hk⟩⟩

/-- The tokens that are passed over are the first ones of the run, and all of their brackets have
their partners among them. What is ahead then is the rest of the run and what stands behind it. -/
structure StaysWithin (s : State) (run behind taken : List Token) : Prop where
  first : ∃ left, run = taken ++ left ∧ (s.passed taken.length).stream.tokens = left ++ behind
  paired : Token.Paired taken

theorem PassesWithin.staysWithin (h : PassesWithin m s [] run)
    (hs : s.stream.tokens = run ++ u :: rest) : ∃ taken, StaysWithin s run (u :: rest) taken ∧
      ∀ n, (m n).run s = some ((), s.passed taken.length) ∨
        n ≤ taken.length ∧ (m n).run s = none := by
  obtain ⟨taken, left, rfl, ha, h⟩ := h
  refine ⟨taken, ⟨⟨left, rfl, ?_⟩, Token.WellBracketed.paired ha⟩, h⟩
  rw [List.append_assoc] at hs
  cases left with
  | nil => exact tokens_passed hs
  | cons v left => exact tokens_passed hs

/-- A statement or an expression that is skipped ends within the bracket that it stands in: before the
closing bracket, or before the end of the file, if all brackets before that match. For a statement the
bracket is a brace. Every bracket that is passed over has its partner among what is passed over. There
is no other result, and it is there if the steps are more than these tokens. -/
theorem skipping_stays_within (hs : s.stream.tokens = run ++ u :: rest)
    (hb : Token.WellBracketed run) (he : ∀ t ∈ run, t.kind ≠ .endOfFile)
    (hu : u.kind = .endOfFile ∨ u.kind.isCloser = true) :
    ((u.kind.isCloser = true → u.kind = .closeBrace) →
      ∃ taken, StaysWithin s run (u :: rest) taken ∧
        ∀ n, (skipStatement n 0).run s = some ((), s.passed taken.length) ∨
          n ≤ taken.length ∧ (skipStatement n 0).run s = none) ∧
    ∃ taken, StaysWithin s run (u :: rest) taken ∧
      ∀ n start, (skippedExpression n start).run s =
          (done .skipped start).run (s.passed taken.length) ∨
        n ≤ taken.length ∧ (skippedExpression n start).run s = none := by
  constructor
  · intro hbrace
    exact (passesWithin_skipStatement hs hb he (hu.imp_right hbrace)).staysWithin hs
  · have hskip : PassesWithin (fun n => skipRun n 0) s [] run := passesWithin_skipRun hs hb he hu
    obtain ⟨taken, hstays, h⟩ := hskip.staysWithin hs
    refine ⟨taken, hstays, fun n start => ?_⟩
    rcases h n with h | ⟨hn, h⟩
    · exact .inl (run_bind_of_eq h)
    · have h : (skipRun n 0).run s = none := h
      refine .inr ⟨hn, ?_⟩
      rw [skippedExpression, StateT.run_bind, h]
      rfl

/-- A loop in a block, with another statement behind it. -/
theorem skipping_stays_within_loop :
    let run := (Token.ofTagged "while (g([$a])) \x7b f(); \x7d h();".toList).dropLast
    let u : Token := ⟨.closeBrace, 31, 32, "\x7d", "", none⟩
    let s : State := { stream := (TokenStream.ofTokens (run ++ [u, .endAt 32])).next }
    (s.stream.tokens = run ++ [u, .endAt 32] ∧ Token.WellBracketed run ∧
      (∀ t ∈ run, t.kind ≠ .endOfFile) ∧ u.kind = .closeBrace) ∧
      (∃ taken, StaysWithin s run [u, .endAt 32] taken ∧
        ∀ n, (skipStatement n 0).run s = some ((), s.passed taken.length) ∨
          n ≤ taken.length ∧ (skipStatement n 0).run s = none) ∧
      ∃ taken, StaysWithin s run [u, .endAt 32] taken ∧
        ∀ n start, (skippedExpression n start).run s =
            (done .skipped start).run (s.passed taken.length) ∨
          n ≤ taken.length ∧ (skippedExpression n start).run s = none := by
  intro run u s
  have hs : s.stream.tokens = run ++ [u, .endAt 32] := by decide +kernel
  have hb : Token.WellBracketed run := by decide +kernel
  have he : ∀ t ∈ run, t.kind ≠ .endOfFile := by decide +kernel
  obtain ⟨hstatement, hexpression⟩ := skipping_stays_within hs hb he (.inr rfl)
  exact ⟨⟨hs, hb, he, rfl⟩, hstatement fun _ => rfl, hexpression⟩

end Grammar

end PhpAtlas
