import PhpAtlas.Proofs.Brackets.Opaque
import PhpAtlas.Proofs.Building.Nesting
import PhpAtlas.Proofs.Building.Opened

/-! # Nesting without a bound

The name of a variable may be another variable, and no level is between the two.
So variables nest in each other as deep as a source has dollar signs.
-/

namespace PhpAtlas

namespace Arena

variable {a : Arena} {i n start stop : Nat} {payload : Payload (Option NodeId)}

/-- The node is a variable that is named by a variable, and that one by another, `n` times. -/
def Tower (a : Arena) : Nat → NodeId → Prop
  | 0, i => i < a.size
  | n + 1, i => ∃ c, a.payload? i = some (.variable none (some c)) ∧ a.Tower n c

theorem Tower.added (h : a.Tower n i) : (a.added payload start stop).Tower n i := by
  induction n generalizing i with
  | zero => exact (Nat.lt_succ_of_lt h).trans_eq size_added.symm
  | succ n ih =>
    obtain ⟨c, hi, hc⟩ := h
    refine ⟨c, ?_, ih hc⟩
    rw [payload?_added, if_neg (Nat.ne_of_lt (lt_size_of_payload? hi)), hi]

/-- A tower is a path of variables, each of which is the name of the one before it. -/
theorem Tower.exists_path (h : a.Tower n i) : ∃ path : List NodeId, path.length = n ∧
    path.IsChain a.IsChild ∧ (∀ j ∈ path.head?, j = i) ∧
      ∀ j ∈ path, ∃ c, a.payload? j = some (.variable none (some c)) := by
  induction n generalizing i with
  | zero => exact ⟨[], rfl, .nil, nofun, nofun⟩
  | succ n ih =>
    obtain ⟨c, hi, hc⟩ := h
    obtain ⟨path, hlen, hchain, hhead, hall⟩ := ih hc
    have hchild : a.IsChild i c := by
      rw [IsChild, children_of_payload? hi]
      exact List.mem_singleton_self c
    refine ⟨i :: path, congrArg (· + 1) hlen, List.isChain_cons.mpr ⟨fun k hk => ?_, hchain⟩,
      fun j hj => (Option.some.inj hj).symm, List.forall_mem_cons.mpr ⟨⟨c, hi⟩, hall⟩⟩
    rwa [hhead k hk]

end Arena

namespace Token

variable {pos : Nat} {cs : List Char}

theorem next_dollar : (next true ⟨pos, '$' :: '$' :: cs⟩).1.kind = .dollar ∧
    (next true ⟨pos, '$' :: '$' :: cs⟩).2 = (⟨pos + 1, '$' :: cs⟩, true) := by
  have hskip : Trivia.skip none .blank pos ('$' :: '$' :: cs) = (⟨pos, '$' :: '$' :: cs⟩, none) := by
    rw [Trivia.skip_blank_cons (by decide) fun h => absurd h (by decide), if_neg (by decide)]
  simp only [next, if_true, hskip]
  exact ⟨rfl, rfl⟩

theorem kinds_of_scans_dollars {n : Nat} {ts : List Token}
    (h : Scans true ⟨pos, List.replicate n '$' ++ "$a;".toList⟩ ts) :
    ts.map kind = List.replicate n .dollar ++ [.variable, .semicolon, .endOfFile] := by
  induction n generalizing pos ts with
  | zero =>
    obtain ⟨us, rfl, hus⟩ := h.rest nofun
    obtain ⟨vs, rfl, hvs⟩ := hus.rest nofun
    rw [hvs.unique (.last rfl)]
    rfl
  | succ n ih =>
    obtain ⟨cs, hcs⟩ : ∃ cs, List.replicate n '$' ++ "$a;".toList = '$' :: cs := by
      cases n with
      | zero => exact ⟨_, rfl⟩
      | succ n => exact ⟨_, rfl⟩
    obtain ⟨hkind, hrest⟩ := @next_dollar pos cs
    rw [List.replicate_succ, List.cons_append, hcs] at h
    obtain ⟨us, rfl, hs⟩ := h.rest (hkind ▸ nofun)
    rw [hrest, ← hcs] at hs
    rw [List.map_cons, hkind, ih hs]
    rfl

end Token

namespace Grammar

variable {s s' : State} {n k : Nat} {rest : List TokenKind}

/-- A variable behind dollar signs starts with one of them or with itself. -/
theorem exists_first_dollar (n : Nat) (rest : List TokenKind) : ∃ first more,
    List.replicate n TokenKind.dollar ++ TokenKind.variable :: rest = first :: more ∧
      (first = .dollar ∨ first = .variable) := by
  cases n with
  | zero => exact ⟨_, _, rfl, .inr rfl⟩
  | succ n => exact ⟨_, _, rfl, .inl rfl⟩

theorem current_of_kinds {kind : TokenKind} (h : s.stream.tokens.map Token.kind = kind :: rest) :
    s.stream.current.kind = kind :=
  (List.cons.inj h).1

theorem kinds_next {kind next : TokenKind}
    (h : s.stream.tokens.map Token.kind = kind :: next :: rest) :
    s.next.stream.tokens.map Token.kind = next :: rest := by
  have hahead : s.stream.ahead.map Token.kind = next :: rest := (List.cons.inj h).2
  cases ha : s.stream.ahead with
  | nil =>
    rw [ha] at hahead
    cases hahead
  | cons t ts =>
    rw [ha] at hahead
    rwa [State.next, TokenStream.tokens_next (show s.stream.tokens = _ :: t :: ts by
      rw [TokenStream.tokens, ha])]

/-- A variable that is named by what comes next. -/
theorem run_primary_dollar {i : NodeId} {next : TokenKind} (hnext : next ≠ .openBrace)
    (h : s.stream.tokens.map Token.kind = .dollar :: next :: rest)
    (hp : (rules n .primary).run s.next = some (some i, s')) :
    (primary (rules n) n).run s =
      (done (.variable none (some i)) s.stream.current.start).run s' := by
  have haccept : (accept .openBrace).run s.next = some (false, s.next) := by
    apply run_accept_of_ne
    rwa [current_of_kinds (kinds_next h)]
  rw [primary, looks_token.run_bind]
  simp only [current_of_kinds h]
  rw [variableVariable, looks_token.run_bind, run_bind_of_eq run_advance_next, variableTarget,
    bind_assoc, run_bind_of_eq haccept, if_neg Bool.false_ne_true, run_bind_of_eq hp]

/-- Dollar signs before a variable are read as a tower. -/
theorem run_primary_dollars {last : TokenKind}
    (h : s.stream.tokens.map Token.kind = List.replicate n .dollar ++ .variable :: last :: rest) :
    ∃ i s', (primary (rules (k + n)) (k + n)).run s = some (some i, s') ∧ s'.arena.Tower n i ∧
      s'.stream.tokens.map Token.kind = last :: rest ∧ s'.depth = s.depth ∧
        s'.diagnostics = s.diagnostics := by
  induction n generalizing s with
  | zero =>
    have hrun : (primary (rules k) k).run s =
        (done (.variable (some s.stream.current.value) none) s.stream.current.start).run s.next := by
      rw [primary, looks_token.run_bind]
      simp only [current_of_kinds h]
      rfl
    refine ⟨_, _, hrun, ?_, kinds_next h, rfl, rfl⟩
    exact (Nat.lt_succ_self _).trans_eq Arena.size_added.symm
  | succ n ih =>
    obtain ⟨next, more, hmore, hfirst⟩ := exists_first_dollar n (last :: rest)
    have hnext : next ≠ .openBrace := by rcases hfirst with rfl | rfl <;> decide
    rw [List.replicate_succ, List.cons_append, hmore] at h
    obtain ⟨i, s', hrun, htower, hkinds, hdepth, hdiagnostics⟩ := ih ((kinds_next h).trans hmore.symm)
    refine ⟨_, _, run_primary_dollar hnext h hrun, ⟨i, ?_, htower.added⟩, hkinds, hdepth,
      hdiagnostics⟩
    exact Arena.payload?_added.trans (if_pos rfl)

/-- An expression and a semicolon are a statement. -/
theorem run_expressionStatement {self : Rules} {e : NodeId}
    (he : (self .expression).run s = some (some e, s'))
    (hk : s'.stream.current.kind = .semicolon) : (expressionStatement self).run s =
      (done (.expressionStatement (some e)) s.stream.current.start).run s'.next := by
  have hsemicolon : expectSemicolon.run s' = some ((), s'.next) := by
    rw [expectSemicolon, accept, bind_assoc, (looks_isAt _).run_bind, if_pos (beq_iff_eq.mpr hk)]
    rfl
  rw [expressionStatement, looks_token.run_bind, run_bind_of_eq he]
  dsimp only
  rw [run_bind_of_eq hsemicolon]

/-- A statement made of such a variable is read to its semicolon. -/
theorem run_statement_dollars {last : TokenKind} (hd : s.depth + 1 < maxDepth)
    (h : s.stream.tokens.map Token.kind =
      List.replicate n .dollar ++ .variable :: .semicolon :: last :: rest) :
    ∃ i j s', (rules (k + n + 5) .statement).run s = some (some i, s') ∧ s'.arena.Tower n j ∧
      s'.stream.current.kind = last ∧ s'.diagnostics = s.diagnostics := by
  let inner : State := { s with depth := s.depth + 1 + 1 }
  obtain ⟨j, s₁, hrun, htower, hkinds, hdepth, hdiagnostics⟩ :=
    run_primary_dollars (s := inner) (k := k) h
  have hfirst : s.stream.current.kind = .dollar ∨ s.stream.current.kind = .variable := by
    obtain ⟨first, more, hmore, hfirst⟩ := exists_first_dollar n (.semicolon :: last :: rest)
    rwa [current_of_kinds (h.trans hmore)]
  have hstart : startsOperator s.stream.current = false := by
    rcases hfirst with hk | hk <;> simp [startsOperator, Token.isWord, hk]
  have hend : s₁.stream.current.kind.endsOpaque = true := by
    rw [current_of_kinds hkinds]
    rfl
  have hexpression := run_expression_of_primary (s := { s with depth := s.depth + 1 }) hstart hd hrun
    hend
  have hbody : (statementBody (rules (k + n + 4)) (k + n + 4)).run { s with depth := s.depth + 1 } =
      (done (.expressionStatement (some j)) s.stream.current.start).run
        { s₁ with depth := s₁.depth - 1 }.next := by
    rw [statementBody, looks_token.run_bind]
    rcases hfirst with hk | hk
    · simp only [hk]
      exact run_expressionStatement hexpression (current_of_kinds hkinds)
    · simp only [hk]
      exact run_expressionStatement hexpression (current_of_kinds hkinds)
  refine ⟨_, j, _, run_nested (Nat.lt_of_succ_lt hd) hbody, htower.added, ?_, hdiagnostics⟩
  exact current_of_kinds (kinds_next hkinds)

end Grammar

open Grammar

/-- A source with a variable behind some dollar signs. -/
def dollars (n : Nat) : List Char := "<?php ".toList ++ (List.replicate n '$' ++ "$a;".toList)

/-- Variables nest in each other as often as their sources say. -/
theorem Parsed.exists_tower (n : Nat) : (ofSource (dollars n)).diagnostics = [] ∧
    ∃ i, (ofSource (dollars n)).arena.Tower n i := by
  let cs := List.replicate n '$' ++ "$a;".toList
  obtain ⟨-, hscans⟩ := stream_opened cs
  have hkinds := Token.kinds_of_scans_dollars hscans
  obtain ⟨first, more, hmore, hfirst⟩ := exists_first_dollar n [.semicolon, .endOfFile]
  have hk := current_of_kinds (hkinds.trans hmore)
  obtain ⟨b, r, s, hb, hrun, hsource⟩ := @exists_only_statement cs
    (by rcases hfirst with rfl | rfl <;> rw [hk] <;> nofun)
    (by rcases hfirst with rfl | rfl <;> rw [hk] <;> nofun)
  obtain ⟨k, hk⟩ : ∃ k, b + 1 = k + n + 5 := by
    have hlen : cs.length = n + 3 := by simp [cs]
    rw [hlen, Grammar.bound] at hb
    exact ⟨b - n - 4, by omega⟩
  obtain ⟨i, j, s', hrun', htower, hend, hdiagnostics⟩ :=
    run_statement_dollars (k := k) (show 1 < maxDepth by decide) hkinds
  rw [hk] at hrun
  cases hrun.symm.trans hrun'
  rw [show dollars n = "<?php ".toList ++ cs from rfl, hsource hend]
  exact ⟨congrArg Array.toList hdiagnostics, j, htower.added⟩

/-- More variables than levels nest in each other in a source without reports. -/
theorem Parsed.exists_path_longer_than_maxDepth : (ofSource (dollars 257)).diagnostics = [] ∧
    ∃ path : List NodeId, maxDepth < path.length ∧
      path.IsChain (ofSource (dollars 257)).arena.IsChild ∧
        ∀ i ∈ path, ∃ c, (ofSource (dollars 257)).arena.payload? i =
          some (.variable none (some c)) := by
  obtain ⟨haccepted, i, htower⟩ := exists_tower 257
  obtain ⟨path, hlen, hchain, -, hall⟩ := htower.exists_path
  exact ⟨haccepted, path, hlen ▸ Nat.lt_succ_self 256, hchain, hall⟩

end PhpAtlas
