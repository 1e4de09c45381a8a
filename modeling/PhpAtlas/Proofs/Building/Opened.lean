import PhpAtlas.Proofs.Building.Statements
import PhpAtlas.Proofs.Token.Slices

/-! # Sources of one statement

Behind an opening tag a source is read as the statements that follow. If the first
of them ends with the source, it is the only one.
-/

namespace PhpAtlas

namespace Token

variable {fuel pos : Nat} {cs : List Char}

theorem next_blank : next true ⟨pos, ' ' :: cs⟩ = next true ⟨pos + 1, cs⟩ := by
  have hskip : Trivia.skip none .blank pos (' ' :: cs) = Trivia.skip none .blank (pos + 1) cs := by
    rw [Trivia.skip_blank_cons (by decide) fun h => absurd h (by decide), if_pos (by decide)]
  simp only [next, if_true, hskip]

theorem scans_blank {ts : List Token} (h : Scans true ⟨pos, ' ' :: cs⟩ ts) :
    Scans true ⟨pos + 1, cs⟩ ts := by
  cases h with
  | last h =>
    rw [next_blank] at h ⊢
    exact .last h
  | step h hrest =>
    rw [next_blank] at h hrest ⊢
    exact .step h hrest

/-- The opening tag at the start of a text. -/
def openTag : Token := ⟨.openTag, 0, 5, "<?php", "", none⟩

theorem next_openTag : next false ⟨0, "<?php ".toList ++ cs⟩ = (openTag, ⟨5, ' ' :: cs⟩, true) := by
  rfl

/-- The tag that a text starts with is its first token. -/
theorem ofSource_opened (cs : List Char) : ∃ ts,
    ofSource ("<?php ".toList ++ cs) = openTag :: ts ∧ Scans true ⟨6, cs⟩ ts := by
  obtain ⟨ts, hts, hs⟩ := (scans_ofSource ("<?php ".toList ++ cs)).rest (by rw [next_openTag]; nofun)
  rw [next_openTag] at hts hs
  exact ⟨ts, hts, scans_blank hs⟩

end Token

namespace Grammar

variable {self : Rules} {closing : TokenKind} {n : Nat} {s s' : State} {cs : List Char}
variable {statements : List (Option NodeId)}

theorem run_statementList_at_end (h : s.stream.current.kind = .endOfFile) :
    (statementList self closing false (n + 1)).run s = some ([], s) := by
  rw [statementList, (looks_isAtEndOr closing).run_bind, if_pos]
  · rfl
  · rw [h, beq_self_eq_true, Bool.or_true]

/-- A list of statements starts with a statement and goes on where that has ended. -/
theorem exists_first_statement
    (h : (statementList self .endOfFile false n).run s = some (statements, s'))
    (hk : s.stream.current.kind ≠ .endOfFile) :
    ∃ m r s₁, n = m + 1 ∧ (self .statement).run s = some (r, s₁) ∧
      (s₁.stream.current.kind ≠ s.stream.current.kind → ∃ rest,
        (statementList self .endOfFile false m).run s₁ = some (rest, s') ∧
          statements = if r.isSome then r :: rest else rest) := by
  cases n with
  | zero => cases h
  | succ m =>
    rw [statementList, (looks_isAtEndOr _).run_bind, if_neg (by simpa using hk),
      looks_isAtNamespace.run_bind, Bool.false_and, if_neg Bool.false_ne_true,
      looks_token.run_bind] at h
    obtain ⟨r, s₁, hr, h⟩ := run_bind_eq_some h
    refine ⟨m, r, s₁, rfl, hr, fun hmoved => ?_⟩
    have hpass : (passOver s.stream.current).run s₁ = some ((), s₁) := by
      rw [passOver, looks_token.run_bind, if_neg]
      · rfl
      · simp [hmoved]
    rw [run_bind_of_eq hpass] at h
    obtain ⟨rest, s₂, hrest, h⟩ := run_bind_eq_some h
    cases h
    exact ⟨rest, hrest, rfl⟩

/-- The state behind an opening tag and a blank. -/
def State.opened (cs : List Char) : State := (State.atFirst ("<?php ".toList ++ cs)).next

theorem stream_opened (cs : List Char) :
    (State.atFirst ("<?php ".toList ++ cs)).stream.current.kind = .openTag ∧
      Token.Scans true ⟨6, cs⟩ (State.opened cs).stream.tokens := by
  obtain ⟨ts, hts, hs⟩ := Token.ofSource_opened cs
  have hfirst := (tokens_atFirst _).trans hts
  obtain ⟨u, us, rfl⟩ := List.exists_cons_of_ne_nil hs.closed.ne_nil
  refine ⟨?_, ?_⟩
  · rw [TokenStream.current_of_tokens hfirst]
    rfl
  · rwa [State.opened, State.next, TokenStream.tokens_next hfirst]

theorem doc_opened (h : (State.opened cs).stream.current.doc = none) :
    (State.opened cs).stream.doc = none := by
  obtain ⟨ts, hts, hs⟩ := Token.ofSource_opened cs
  obtain ⟨u, us, rfl⟩ := List.exists_cons_of_ne_nil hs.closed.ne_nil
  have hstream : (State.opened cs).stream =
      ⟨u, us, if u.kind.endsDoc then none else u.doc <|> none⟩ := by
    simp only [State.opened, State.atFirst, State.next, TokenStream.ofSource, TokenStream.ofTokens,
      TokenStream.next, hts]
    rfl
  rw [hstream] at h ⊢
  dsimp only at h ⊢
  rw [h]
  split <;> rfl

theorem run_statement_openTag (h : s.stream.current.kind = .openTag) (hd : s.depth < maxDepth) :
    (rules (n + 1) .statement).run s = some (none, s.next) := by
  have hbody : (statementBody (rules n) n).run { s with depth := s.depth + 1 } =
      some (none, { s.next with depth := s.depth + 1 }) := by
    rw [statementBody, looks_token.run_bind]
    simp only [h]
    rfl
  exact run_nested hd hbody

variable (hopen : (State.opened cs).stream.current.kind ≠ .openTag)
variable (hend : (State.opened cs).stream.current.kind ≠ .endOfFile)

include hopen hend

/-- If a statement behind an opening tag ends with the source, it is the only one. -/
theorem exists_only_statement : ∃ b r s, Grammar.bound (cs.length + 6) = b + 1 ∧
    (rules (b + 1) .statement).run (.opened cs) = some (r, s) ∧
      (s.stream.current.kind = .endOfFile →
        Parsed.ofSource ("<?php ".toList ++ cs) =
          ⟨s.arena.added (.sourceFile (r.toList.map some)) 0 s.stream.current.stop,
            s.arena.size, s.diagnostics.toList⟩) := by
  have hlen : ("<?php ".toList ++ cs).length = cs.length + 6 := by
    rw [List.length_append]
    exact Nat.add_comm 6 cs.length
  obtain ⟨statements, s, hlist, -, he⟩ := run_statements ("<?php ".toList ++ cs)
  obtain ⟨hfirst, -⟩ := stream_opened cs
  obtain ⟨n, r₀, s₀, hn, hr₀, hgo⟩ := exists_first_statement hlist (hfirst ▸ by decide)
  rw [hlen] at hn
  rw [hlen, hn] at hr₀
  have hopened := hr₀.symm.trans (run_statement_openTag hfirst (Nat.succ_pos 255))
  cases hopened
  obtain ⟨rest, hrest, rfl⟩ := hgo fun h => hopen (h.trans hfirst)
  obtain ⟨m, r, s₁, rfl, hr, hgo⟩ := exists_first_statement hrest hend
  rw [hlen, hn] at hr
  refine ⟨m + 1, r, s₁, hn, hr, fun hk => ?_⟩
  obtain ⟨_, hlast, rfl⟩ := hgo fun h => hend (h.symm.trans hk)
  cases m with
  | zero => cases hlast
  | succ m =>
    cases hlast.symm.trans (run_statementList_at_end hk)
    rw [he]
    cases r <;> rfl

end Grammar

end PhpAtlas
