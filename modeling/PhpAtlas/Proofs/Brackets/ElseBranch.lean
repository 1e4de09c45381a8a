import PhpAtlas.Proofs.Brackets.Opaque
import PhpAtlas.Proofs.Reading.Declarations
import PhpAtlas.Proofs.Tree.Forest

/-! # Branches that are skipped

A skipped statement ends with a semicolon, or with a block that nothing goes on with. As
`else` goes on with a block, the else branch of a conditional is skipped too where the
statement before it ends with a block, and the conditional is left without one.
-/

namespace PhpAtlas

/-- Tokens in one pair of brackets, in which all brackets match. -/
inductive Token.Enclosed (opener : TokenKind) : List Token → Prop
  | intro {o c : Token} {inner : List Token} (ho : o.kind = opener)
      (hc : opener.closer? = some c.kind) (hm : WellBracketed inner)
      (he : ∀ t ∈ inner, t.kind ≠ .endOfFile) : Enclosed opener (o :: inner ++ [c])

namespace Grammar

open TokenStream (current_of_tokens tokens_next)

variable {s s' s₁ s₂ s₃ : State} {e t u z : Token} {S B T run rest rest' : List Token}
variable {isCut : Bool} {depth m n : Nat} {kind : TokenKind} {c i : NodeId} {r : Option NodeId}

/-! ## The end of a skipped statement -/

/-- What comes after the last token of a skipped statement can be put in place of the rest. -/
theorem SkippedRun.extend (h : SkippedRun false depth (run ++ [z]) rest)
    (hend : ∀ depth, SkippedRun false depth [z] rest → SkippedRun isCut depth (z :: T) rest') :
    SkippedRun isCut depth (run ++ z :: T) rest' := by
  induction run generalizing depth with
  | nil => exact hend depth h
  | cons t run ih =>
    generalize hall : t :: run ++ [z] = all at h
    cases h with
    | stop | cut => cases hall
    | semicolon | block => simp at hall
    | opening ht h =>
      cases hall
      exact .opening ht (ih h)
    | closing ht h =>
      cases hall
      exact .closing ht (ih h)
    | brace ht hd hu h =>
      cases hall
      refine .brace ht hd (fun h1 => ?_) (ih h)
      have hu := hu h1
      cases run <;> exact hu
    | inner ht he hs h =>
      cases hall
      exact .inner ht he hs (ih h)

theorem not_continues_of_kind (h : u.kind = .closeBrace ∨ u.kind = .closeTag) :
    continues u = false := by
  rcases h with h | h <;> simp [continues, Token.isWord, h, continuationWords]

/-- A skipped statement that ends with a block goes on with whatever continues it. -/
theorem SkippedRun.append (h : SkippedRun false depth (run ++ [z]) (u :: rest))
    (hz : z.kind = .closeBrace) (hc : (T ++ rest').head?.any continues = true)
    (hT : SkippedRun isCut 0 T rest') : SkippedRun isCut depth (run ++ z :: T) rest' := by
  refine h.extend fun depth h => ?_
  cases h with
  | semicolon _ ht => simp [hz] at ht
  | block => exact .brace hz Nat.one_pos (fun _ => hc) hT
  | opening ht => simp [hz, TokenKind.closer?] at ht
  | closing ht => simp [hz] at ht
  | inner ht => simp [hz, TokenKind.isBracket, TokenKind.isCloser] at ht
  | brace _ hd hu h =>
    generalize hpred : depth - 1 = pred at h
    cases h with
    | stop _ ht =>
      have hcont : continues u = true := by simpa using hu (by omega)
      rw [not_continues_of_kind ht] at hcont
      cases hcont
    | cut hcut => cases hcut

/-- One that ends with a semicolon ends there before anything else. -/
theorem SkippedRun.of_semicolon (h : SkippedRun false depth (run ++ [z]) rest)
    (hz : z.kind = .semicolon) : SkippedRun false depth (run ++ [z]) rest' := by
  refine h.extend fun depth h => ?_
  cases h with
  | semicolon => exact .semicolon rfl hz
  | block _ ht => simp [hz] at ht
  | opening ht => simp [hz, TokenKind.closer?] at ht
  | closing ht => simp [hz] at ht
  | brace ht => simp [hz] at ht
  | inner _ _ hs h =>
    cases h with
    | stop => exact absurd hz (hs rfl).1
    | cut hcut => cases hcut

/-- Tokens in brackets go on if their closing bracket does. -/
theorem SkippedRun.enclosed (h : Token.Enclosed kind run)
    (hend : ∀ z : Token, kind.closer? = some z.kind → SkippedRun isCut (depth + 1) (z :: T) rest) :
    SkippedRun isCut depth (run ++ T) rest := by
  cases h with
  | @intro o z inner ho hc hm he =>
    have hgo : GoesOn (depth + 1) [] inner := ⟨hm, he, fun h0 => absurd h0 (Nat.succ_ne_zero _)⟩
    rw [List.append_assoc, List.cons_append]
    exact .opening (by rw [ho, hc]; rfl) ((hend z hc).insert hgo)

/-! ## Statements with blocks -/

/-- The tokens of a whole skipped statement that ends with a token of the kind. -/
structure SkippedStatement (last : TokenKind) (run : List Token) : Prop where
  opens : ∃ t ∈ run.head?, t.kind = .identifier ∧ lower t.text ∈ skippedWords
  ends : ∃ u rest, continues u = false ∧ SkippedRun false 0 run (u :: rest)
  last : ∃ front z, run = front ++ [z] ∧ z.kind = last

/-- What follows the block after `try`: blocks after `catch`, and one after `finally`. -/
inductive Clauses : List Token → Prop
  | nil : Clauses []
  | caught {t : Token} {head body rest : List Token} (ht : t.isWord "catch" = true)
      (hh : Token.Enclosed .openParen head) (hb : Token.Enclosed .openBrace body)
      (h : Clauses rest) : Clauses (t :: head ++ body ++ rest)
  | lastly {t : Token} {body : List Token} (ht : t.isWord "finally" = true)
      (hb : Token.Enclosed .openBrace body) : Clauses (t :: body)

/-- The tokens of `for`, `foreach`, `while` or `switch` with a block, or of `try` with its
clauses. -/
inductive BlockStatement : List Token → Prop
  | head {t : Token} {word : String} {head body : List Token}
      (hw : word ∈ ["for", "foreach", "while", "switch"]) (ht : t.isWord word = true)
      (hh : Token.Enclosed .openParen head) (hb : Token.Enclosed .openBrace body) :
      BlockStatement (t :: head ++ body)
  | tried {t : Token} {body clauses : List Token} (ht : t.isWord "try" = true)
      (hb : Token.Enclosed .openBrace body) (hc : Clauses clauses) :
      BlockStatement (t :: body ++ clauses)

theorem kind_of_isWord {word : String} (h : t.isWord word = true) : t.kind = .identifier :=
  eq_of_beq (Bool.and_eq_true_iff.mp h).1

theorem SkippedRun.word {word : String} (ht : t.isWord word = true)
    (h : SkippedRun isCut 0 run rest) : SkippedRun isCut 0 (t :: run) rest := by
  have hk := kind_of_isWord ht
  exact .inner (by rw [hk]; rfl) (by simp [hk]) (fun _ => by simp [hk]) h

/-- What comes after a block of a skipped statement: the end of the statement, or more of it. -/
inductive AfterBlock (isCut : Bool) : List Token → List Token → Prop
  | ends {u : Token} {rest : List Token} (hc : isCut = false) (hu : continues u = false) :
      AfterBlock isCut [] (u :: rest)
  | goesOn {run rest : List Token} (hc : (run ++ rest).head?.any continues = true)
      (h : SkippedRun isCut 0 run rest) : AfterBlock isCut run rest

theorem SkippedRun.braces (hb : Token.Enclosed .openBrace B) (h : AfterBlock isCut T rest) :
    SkippedRun isCut 0 (B ++ T) rest := by
  refine .enclosed hb fun z hz => ?_
  have hz : z.kind = .closeBrace := (Option.some.inj hz).symm
  cases h with
  | ends hc hu => exact .block hc hz hu
  | goesOn hc hT => exact .brace hz Nat.one_pos (fun _ => hc) hT

theorem SkippedRun.parens (hh : Token.Enclosed .openParen run)
    (h : SkippedRun isCut 0 T rest) : SkippedRun isCut 0 (run ++ T) rest := by
  refine .enclosed hh fun z hz => ?_
  exact .closing (.inl (Option.some.inj hz).symm) h

theorem Clauses.afterBlock (h : Clauses T) (hu : continues u = false) :
    AfterBlock false T (u :: rest) := by
  induction h with
  | nil => exact .ends rfl hu
  | caught ht hh hb _ ih =>
    refine .goesOn ?_ ?_
    · simp [continues, continuationWords, ht]
    · rw [List.cons_append, List.cons_append, List.append_assoc]
      exact .word ht (.parens hh (.braces hb ih))
  | @lastly t body ht hb =>
    refine .goesOn ?_ ?_
    · simp [continues, continuationWords, ht]
    · rw [← List.append_nil body]
      exact .word ht (.braces hb (.ends rfl hu))

theorem exists_last_append (h : ∃ front z, T = front ++ [z] ∧ z.kind = kind) (run : List Token) :
    ∃ front z, run ++ T = front ++ [z] ∧ z.kind = kind := by
  obtain ⟨front, z, rfl, hz⟩ := h
  exact ⟨run ++ front, z, (List.append_assoc ..).symm, hz⟩

theorem braces_last (h : Token.Enclosed .openBrace B) :
    ∃ front z, B = front ++ [z] ∧ z.kind = .closeBrace := by
  cases h with
  | @intro o z inner _ hc => exact ⟨o :: inner, z, rfl, (Option.some.inj hc).symm⟩

theorem Clauses.last (h : Clauses T) :
    T = [] ∨ ∃ front z, T = front ++ [z] ∧ z.kind = .closeBrace := by
  induction h with
  | nil => exact .inl rfl
  | @caught t head body rest _ _ hb _ ih =>
    right
    rcases ih with rfl | ih
    · rw [List.append_nil]
      exact exists_last_append (braces_last hb) _
    · exact exists_last_append ih _
  | @lastly t body _ hb => exact .inr (exists_last_append (braces_last hb) [t])

theorem mem_skippedWords {word : String} (hw : lower word ∈ skippedWords)
    (ht : t.isWord word = true) : t.kind = .identifier ∧ lower t.text ∈ skippedWords := by
  obtain ⟨hk, hn⟩ := Bool.and_eq_true_iff.mp ht
  exact ⟨eq_of_beq hk, sameName_iff.mp hn ▸ hw⟩

theorem BlockStatement.skippedStatement (h : BlockStatement S) :
    SkippedStatement .closeBrace S := by
  have hend : continues (.endAt 0) = false := by decide
  cases h with
  | @head t word head body hw ht hh hb =>
    have hwords : ∀ word ∈ ["for", "foreach", "while", "switch"], lower word ∈ skippedWords := by
      decide +kernel
    have hbody : SkippedRun false 0 (body ++ []) [.endAt 0] := .braces hb (.ends rfl hend)
    rw [List.append_nil] at hbody
    exact ⟨⟨t, rfl, mem_skippedWords (hwords word hw) ht⟩,
      ⟨.endAt 0, [], hend, .word ht (.parens hh hbody)⟩, exists_last_append (braces_last hb) _⟩
  | @tried t body clauses ht hb hc =>
    refine ⟨⟨t, rfl, mem_skippedWords (by decide +kernel) ht⟩,
      ⟨.endAt 0, [], hend, .word ht (.braces hb (hc.afterBlock hend))⟩, ?_⟩
    rcases hc.last with rfl | hlast
    · rw [List.append_nil]
      exact exists_last_append (braces_last hb) [t]
    · exact exists_last_append hlast _

/-! ## Running the rules -/

theorem not_isWord_enum (ht : lower t.text ∈ skippedWords) : t.isWord "enum" = false := by
  have henum : lower "enum" ∉ skippedWords := by decide +kernel
  by_contra hw
  have hw := (Bool.and_eq_true_iff.mp (Bool.of_not_eq_false hw)).2
  exact henum (sameName_iff.mp hw ▸ ht)

/-- A statement that starts with one of the words is passed over. -/
theorem run_statement_of_skipped (ht : t.kind = .identifier ∧ lower t.text ∈ skippedWords)
    (hs : s.stream.tokens = t :: run ++ u :: rest)
    (hrun : SkippedRun isCut 0 (t :: run) (u :: rest)) (hn : (t :: run).length < m)
    (hd : s.depth < maxDepth) :
    (rules (m + 1) .statement).run s = some (none, s.passed (t :: run).length) := by
  let inner : State := { s with depth := s.depth + 1 }
  have hinner : inner.stream.tokens = t :: run ++ u :: rest := hs
  have ht₁ : inner.stream.current = t := current_of_tokens hs
  have hbody : (statementBody (rules m) m).run inner =
      some (none, inner.passed (t :: run).length) := by
    rw [statementBody, looks_token.run_bind]
    simp only [ht₁, ht.1]
    rw [looks_isAtEnum.run_bind, ht₁, not_isWord_enum ht.2, Bool.false_and,
      if_neg Bool.false_ne_true, if_pos (by simpa using ht.2), skippedStatement,
      run_bind_of_eq (hrun.run_skipStatement hinner hn)]
    rfl
  refine (run_nested hd hbody).trans ?_
  have hdepth : s.depth = (s.passed (t :: run).length).depth := (s.depth_passed _).symm
  rw [s.passed_withDepth, Nat.add_sub_cancel, hdepth]

/-- Elsewhere than at `else` and `elseif` there is no else branch. -/
theorem run_elseBranch_of_not_continues {self : Rules} (h : continues s.stream.current = false) :
    (elseBranch self).run s = some (none, s) := by
  simp only [continues, Bool.or_eq_false_iff, beq_eq_false_iff_ne] at h
  rw [elseBranch, (looks_isAt _).run_bind, if_neg (by simpa using h.1.2),
    run_bind_of_eq (run_accept_of_ne h.1.1), if_neg Bool.false_ne_true]
  rfl

theorem run_elseBranch_of_else {self : Rules} (h : s.stream.current.kind = .keyword .elseKw) :
    (elseBranch self).run s = (self .statement).run s.next := by
  rw [elseBranch, (looks_isAt _).run_bind, if_neg (by simp [h]),
    run_bind_of_eq (run_accept_of_kind h), if_pos rfl]

/-- The rules with the bound read the condition of the conditional at the first state, and come to
its closing parenthesis at the second one. -/
structure ReadsCondition (n : Nat) (s : State) (c : NodeId) (s₁ : State) : Prop where
  opens : s.stream.current.kind = .keyword .ifKw
  paren : s.next.stream.current.kind = .openParen
  shallow : s.depth < maxDepth
  condition : (rules n .expression).run { s.next.next with depth := s.depth + 1 } =
    some (some c, s₁)
  closes : s₁.stream.current.kind = .closeParen
  inner : s₁.depth < maxDepth

/-- The rules with the bound read the conditional at the first state up to the second one, where all
that they add is its node with the branches. -/
def ReadsConditional (n : Nat) (s : State) (c : NodeId) (b e : Option NodeId) (s' : State) : Prop :=
  (rules n .statement).run s = some (some s'.arena.size,
    { s' with
      arena := s'.arena.added (.ifStatement (some c) b e) s.stream.current.start
        (max s'.readTo s.stream.current.start)
      depth := s'.depth - 1 })

theorem readsConditional_of_branches {b e : Option NodeId} (h : ReadsCondition n s c s₁)
    (hcolon : s₁.next.stream.current.kind ≠ .colon)
    (hb : (rules n .statement).run s₁.next = some (b, s₂))
    (he : (elseBranch (rules n)).run s₂ = some (e, s₃)) :
    ReadsConditional (n + 1) s c b e s₃ := by
  let inner : State := { s with depth := s.depth + 1 }
  have hparen : inner.next.stream.current.kind = .openParen := h.paren
  have hcond : (rules n .expression).run inner.next.next = some (some c, s₁) := h.condition
  have hrefuse : refuseColon.run s₁.next = some ((), s₁.next) := by
    rw [refuseColon, (looks_isAt _).run_bind, if_neg (by simpa using hcolon)]
    rfl
  have hrule : (ifStatement (rules n)).run inner =
      (done (.ifStatement (some c) b e) s.stream.current.start).run s₃ := by
    rw [ifStatement, looks_token.run_bind, run_bind_of_eq run_advance_next,
      run_bind_of_eq (run_discard_expect_of_kind hparen), run_bind_of_eq hcond,
      run_bind_of_eq (run_discard_expect_of_kind h.closes), run_bind_of_eq hrefuse,
      run_bind_of_eq hb, run_bind_of_eq he]
  have hbody : (statementBody (rules n) n).run inner =
      (done (.ifStatement (some c) b e) s.stream.current.start).run s₃ := by
    rw [statementBody, looks_token.run_bind]
    simp only [h.opens, inner]
    exact hrule
  exact run_nested h.shallow hbody

/-! ## Else branches -/

/-- After a block, more is skipped up to some token, or nothing if the next token does not go on. -/
theorem exists_afterBlock (hclosed : Token.Closed s.stream.tokens)
    (hn : s.stream.tokens.length ≤ n) : ∃ isCut T v rest, s.stream.tokens = T ++ v :: rest ∧
      (continues s.stream.current = false → T = []) ∧ AfterBlock isCut T (v :: rest) := by
  cases hu : continues s.stream.current with
  | false => exact ⟨false, [], _, s.stream.ahead, rfl, fun _ => rfl, .ends rfl hu⟩
  | true =>
    have hfits : Fits s.stream.left (skipStatement n 0) := fits_skipStatement hn
    obtain ⟨_, s', hrun, -⟩ := hfits.yields ⟨hclosed, Nat.le_refl _⟩
    obtain ⟨isCut, T, hT, hskip⟩ := run_skipStatement hclosed hrun
    refine ⟨isCut, T, _, s'.stream.ahead, hT, nofun, .goesOn ?_ hskip⟩
    rw [show T ++ s'.stream.current :: s'.stream.ahead = s.stream.tokens from hT.symm]
    exact hu

/-- An else branch is skipped with a branch before it that ends with a block. -/
theorem exists_run_statement_of_else (hS : SkippedStatement .closeBrace S)
    (he : e.kind = .keyword .elseKw) (hB : Token.Enclosed .openBrace B)
    (hs : s.stream.tokens = S ++ e :: B ++ u :: rest) (hclosed : Token.Closed s.stream.tokens)
    (hn : s.stream.tokens.length ≤ m) (hd : s.depth < maxDepth) :
    ∃ k, (S ++ e :: B).length ≤ k ∧ (continues u = false → k = (S ++ e :: B).length) ∧
      (rules (m + 1) .statement).run s = some (none, s.passed k) := by
  obtain ⟨⟨t, ht, hword⟩, ⟨w, _, hw, hrun⟩, front, z, rfl, hz⟩ := hS
  obtain ⟨more, hmore⟩ := List.head?_eq_some_iff.mp ht
  have hu := tokens_passed hs
  generalize hs' : s.passed (front ++ [z] ++ e :: B).length = s' at hu
  have hsuffix : s'.stream.tokens <:+ s.stream.tokens := by
    rw [hu, hs]
    exact List.suffix_append _ _
  have hlen : s'.stream.tokens.length ≤ m := hsuffix.length_le.trans hn
  obtain ⟨isCut, T, v, rest', hT, hnil, hafter⟩ :=
    exists_afterBlock (hclosed.of_suffix hsuffix (List.cons_ne_nil _ _)) hlen
  have hcont : continues e = true := by simp [continues, he]
  have hbranch : SkippedRun isCut 0 (e :: (B ++ T)) (v :: rest') :=
    .inner (by rw [he]; rfl) (by simp [he]) (fun _ => by simp [he]) (.braces hB hafter)
  have hall := hrun.append hz (by simpa using hcont) hbranch
  have hfirst (ts : List Token) : front ++ z :: ts = t :: (more ++ ts) := by
    rw [← List.cons_append, ← hmore, List.append_assoc, List.singleton_append]
  rw [hfirst] at hall
  have htokens : s.stream.tokens = t :: (more ++ e :: (B ++ T)) ++ v :: rest' := by
    rw [hs, ← hu, hT, hmore]
    simp
  have hlen := congrArg List.length htokens
  simp only [List.length_append, List.length_cons] at hlen
  refine ⟨(t :: (more ++ e :: (B ++ T))).length, ?_, fun hc => ?_,
    run_statement_of_skipped hword htokens hall ?_ hd⟩
  · simp [hmore]
  · have hcurrent : s'.stream.current = u := current_of_tokens hu
    rw [hnil (hcurrent ▸ hc), List.append_nil, hmore, List.cons_append]
  · simp only [List.length_append, List.length_cons]
    omega

/-- Before anything else a branch that ends with a semicolon is skipped as a whole. -/
theorem run_statement_of_semicolon (hS : SkippedStatement .semicolon S)
    (hs : s.stream.tokens = S ++ u :: rest) (hn : S.length < m) (hd : s.depth < maxDepth) :
    (rules (m + 1) .statement).run s = some (none, s.passed S.length) := by
  obtain ⟨⟨t, ht, hword⟩, ⟨w, _, hw, hrun⟩, front, z, rfl, hz⟩ := hS
  obtain ⟨more, hmore⟩ := List.head?_eq_some_iff.mp ht
  have hskip : SkippedRun false 0 (front ++ [z]) (u :: rest) := hrun.of_semicolon hz
  rw [hmore] at hs hn hskip ⊢
  exact run_statement_of_skipped hword hs hskip hn hd

/-- Where a block starts, the node of the statement is the node of the block. -/
theorem exists_block_of_run (hk : s.stream.current.kind = .openBrace) (hd : s.depth < maxDepth)
    (h : (rules (m + 1) .statement).run s = some (r, s')) :
    ∃ i statements, r = some i ∧ s'.arena.payload? i = some (.block statements) := by
  obtain ⟨hdeep, -⟩ | ⟨s₁, -, hbody, rfl⟩ := run_nested_eq_some h
  · omega
  · rw [statementBody, looks_token.run_bind] at hbody
    simp only [hk] at hbody
    rw [block, looks_token.run_bind] at hbody
    obtain ⟨_, s₂, -, hbody⟩ := run_bind_eq_some hbody
    obtain ⟨statements, s₃, -, hbody⟩ := run_bind_eq_some hbody
    obtain ⟨_, s₄, -, hbody⟩ := run_bind_eq_some hbody
    cases hbody
    exact ⟨_, statements, rfl, Arena.payload?_added.trans (if_pos rfl)⟩

theorem ne_colon_of_skipped {last : TokenKind} (hS : SkippedStatement last S)
    (hs : s.stream.tokens = S ++ rest) : s.stream.current.kind ≠ .colon := by
  obtain ⟨t, ht, hk, -⟩ := hS.opens
  obtain ⟨more, rfl⟩ := List.head?_eq_some_iff.mp ht
  rw [current_of_tokens hs, hk]
  decide

/-- If the branch before `else` is a skipped statement that ends with a block, such as a loop with a
block, a block after `else` is skipped with it: the conditional has no branch, and nothing is
reported. Whatever is read as its else branch instead stands behind that block, where the skipped
statement is over. If the branch ends with a semicolon, the else branch is what follows, a block as
the node of the block. -/
theorem else_after_skipped (h : ReadsCondition (m + 1) s c s₁)
    (hclosed : Token.Closed s₁.next.stream.tokens) (hn : s₁.next.stream.tokens.length ≤ m)
    (he : e.kind = .keyword .elseKw) :
    (∀ S, BlockStatement S → SkippedStatement .closeBrace S) ∧
    (∀ S B u rest, SkippedStatement .closeBrace S → Token.Enclosed .openBrace B →
      s₁.next.stream.tokens = S ++ e :: B ++ u :: rest →
      (continues u = false →
        ReadsConditional (m + 2) s c none none (s₁.next.passed (S ++ e :: B).length)) ∧
      ∃ k, (S ++ e :: B).length ≤ k ∧ ∀ r s₂,
        (elseBranch (rules (m + 1))).run (s₁.next.passed k) = some (r, s₂) →
          ReadsConditional (m + 2) s c none r s₂) ∧
    ∀ S u rest r s₂, SkippedStatement .semicolon S →
      s₁.next.stream.tokens = S ++ e :: u :: rest →
      (rules (m + 1) .statement).run (s₁.next.passed (S.length + 1)) = some (r, s₂) →
      ReadsConditional (m + 2) s c none r s₂ ∧
        (u.kind = .openBrace → ∃ i statements, r = some i ∧
          s₂.arena.payload? i = some (.block statements)) := by
  have hd : s₁.next.depth < maxDepth := h.inner
  refine ⟨fun S => BlockStatement.skippedStatement, fun S B u rest hS hB hs => ?_,
    fun S u rest r s₂ hS hs hr => ?_⟩
  · have hcolon : s₁.next.stream.current.kind ≠ .colon :=
      ne_colon_of_skipped hS (hs.trans (by rw [List.append_assoc]))
    obtain ⟨k, hk, hexact, hrun⟩ := exists_run_statement_of_else hS he hB hs hclosed hn hd
    refine ⟨fun hu => ?_, k, hk, fun r s₂ hr => readsConditional_of_branches h hcolon hrun hr⟩
    rw [hexact hu] at hrun
    refine readsConditional_of_branches h hcolon hrun (run_elseBranch_of_not_continues ?_)
    rwa [current_of_tokens (tokens_passed hs)]
  · have hcolon : s₁.next.stream.current.kind ≠ .colon := ne_colon_of_skipped hS hs
    have hlen : S.length < m := by
      have := congrArg List.length hs
      simp only [List.length_append, List.length_cons] at this
      omega
    have hrun := run_statement_of_semicolon hS hs hlen hd
    have helse : (s₁.next.passed S.length).stream.tokens = e :: u :: rest := tokens_passed hs
    rw [State.passed_add] at hr
    refine ⟨readsConditional_of_branches h hcolon hrun ?_, fun hu => ?_⟩
    · rw [run_elseBranch_of_else (by rw [current_of_tokens helse, he])]
      exact hr
    · refine exists_block_of_run ?_ ?_ hr
      · rw [← hu]
        exact congrArg Token.kind (current_of_tokens (tokens_next helse))
      · rwa [State.depth_passed, State.depth_passed]

/-- A variable is a condition. -/
theorem exists_readsCondition {f o v z : Token} (hf : f.kind = .keyword .ifKw)
    (ho : o.kind = .openParen) (hv : v.kind = .variable) (hz : z.kind = .closeParen)
    (hs : s.stream.tokens = f :: o :: v :: z :: rest) (hd : s.depth + 1 < maxDepth) :
    ∃ s₁, ReadsCondition (n + 4) s s.arena.size s₁ ∧ s₁.stream.tokens = z :: rest := by
  have hnext : s.next.stream.tokens = o :: v :: z :: rest := tokens_next hs
  let inner : State := { s.next.next with depth := s.depth + 1 }
  have hinner : inner.stream.tokens = v :: z :: rest := tokens_next hnext
  obtain ⟨stream, readTo, htokens, hrun⟩ :=
    readsNode_variable (n := n) hv (by rw [hz]; rfl) hd hinner
  refine ⟨_, ⟨?_, ?_, Nat.lt_of_succ_lt hd, hrun, ?_, hd⟩, htokens⟩
  · rw [current_of_tokens hs, hf]
  · rw [current_of_tokens hnext, ho]
  · rw [current_of_tokens htokens, hz]

theorem closed_drop_ofSource {source : List Char} (h : (Token.ofSource source).drop n ≠ []) :
    Token.Closed ((Token.ofSource source).drop n) :=
  (TokenStream.closed_ofSource source).of_suffix
    ((List.drop_suffix n _).trans (List.suffix_cons _ _)) h

theorem else_after_skipped_foreach :
    let source := "<?php if ($a) foreach ($x as $y) \x7b\x7d else \x7b class C \x7b\x7d \x7d".toList
    let s : State := { stream := (TokenStream.ofSource source).next.next }
    ∃ s₁, ReadsCondition 25 s 0 s₁ ∧ s₁.next.stream.tokens = (Token.ofSource source).drop 5 ∧
      ReadsConditional 26 s 0 none none (s₁.next.passed 15) := by
  intro source s
  let t (i : Nat) : Token := (Token.ofSource source).getD i (.endAt 0)
  let branch := [t 5, t 6, t 7, t 8, t 9, t 10, t 11, t 12]
  let block := [t 14, t 15, t 16, t 17, t 18, t 19]
  have htokens : s.stream.tokens = t 1 :: t 2 :: t 3 :: t 4 :: (Token.ofSource source).drop 5 ∧
      (Token.ofSource source).drop 5 = t 5 :: (Token.ofSource source).drop 6 ∧
      (Token.ofSource source).drop 5 = branch ++ t 13 :: block ++ t 20 :: [] := by
    decide +kernel
  have hkinds : (t 1).kind = .keyword .ifKw ∧ (t 2).kind = .openParen ∧ (t 3).kind = .variable ∧
      (t 4).kind = .closeParen ∧ (t 13).kind = .keyword .elseKw ∧ continues (t 20) = false := by
    decide +kernel
  have hbranch : BlockStatement branch := by
    have hhead : (t 6).kind = .openParen ∧ TokenKind.openParen.closer? = some (t 10).kind ∧
        Token.WellBracketed [t 7, t 8, t 9] ∧ ∀ u ∈ [t 7, t 8, t 9], u.kind ≠ .endOfFile := by
      decide +kernel
    have hbody : (t 5).isWord "foreach" = true ∧ (t 11).kind = .openBrace ∧
        TokenKind.openBrace.closer? = some (t 12).kind ∧ Token.WellBracketed [] := by
      decide +kernel
    obtain ⟨hword, ho, hc, hm⟩ := hbody
    exact @BlockStatement.head (t 5) "foreach" [t 6, t 7, t 8, t 9, t 10] [t 11, t 12] (by decide)
      hword (.intro hhead.1 hhead.2.1 hhead.2.2.1 hhead.2.2.2) (.intro ho hc hm nofun)
  have hblock : Token.Enclosed .openBrace block := by
    have h : (t 14).kind = .openBrace ∧ TokenKind.openBrace.closer? = some (t 19).kind ∧
        Token.WellBracketed [t 15, t 16, t 17, t 18] ∧
        ∀ u ∈ [t 15, t 16, t 17, t 18], u.kind ≠ .endOfFile := by
      decide +kernel
    exact .intro h.1 h.2.1 h.2.2.1 h.2.2.2
  have hshallow : s.depth + 1 < maxDepth := by decide
  have hsize : s.arena.size = 0 := rfl
  have hlength : branch.length = 8 ∧ block.length = 6 := ⟨rfl, rfl⟩
  -- Only these facts count from here on; what the scanner computes need not be looked at again.
  clear_value block branch t s source
  obtain ⟨hs, hcons, hrest⟩ := htokens
  obtain ⟨hif, hopen, hvariable, hclose, helse, hend⟩ := hkinds
  have hclosed : Token.Closed ((Token.ofSource source).drop 5) :=
    closed_drop_ofSource (hcons ▸ List.cons_ne_nil _ _)
  obtain ⟨s₁, hcondition, hs₁⟩ :=
    exists_readsCondition (n := 21) hif hopen hvariable hclose hs hshallow
  rw [hsize] at hcondition
  have hnext : s₁.next.stream.tokens = (Token.ofSource source).drop 5 := by
    rw [hcons] at hs₁ ⊢
    exact tokens_next hs₁
  have hfew : s₁.next.stream.tokens.length ≤ 24 := by simp [hnext, hrest, hlength]
  obtain ⟨hblocks, hlost, -⟩ := else_after_skipped hcondition (hnext ▸ hclosed) hfew helse
  have hcut := (hlost branch block (t 20) [] (hblocks branch hbranch) hblock
    (hnext.trans hrest)).1 hend
  have hpassed : (branch ++ t 13 :: block).length = 15 := by simp [hlength]
  rw [hpassed] at hcut
  exact ⟨s₁, hcondition, hnext, hcut⟩

/-- A class that is declared in a block by itself is missing where the block is an else branch after
a loop with a block; nothing is reported. -/
theorem exists_else_lost :
    let block := "\x7b class C \x7b\x7d \x7d"
    let alone := Parsed.ofSource ("<?php " ++ block).toList
    let whole := Parsed.ofSource ("<?php if ($a) foreach ($x as $y) \x7b\x7d else " ++ block).toList
    alone.diagnostics = [] ∧ whole.diagnostics = [] ∧
    alone.arena.nodes.toList.map Node.kind =
      [.identifier, .classDeclaration, .block, .sourceFile] ∧
    whole.arena.nodes.toList.map Node.kind = [.variable, .ifStatement, .sourceFile] ∧
    whole.arena.children 1 = [0] := by
  decide +kernel

end Grammar

end PhpAtlas
