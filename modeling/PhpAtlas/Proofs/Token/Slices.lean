import PhpAtlas.Proofs.Token.Tiles

/-! # Slices of texts

The scanner looks no further than to the closing brace with which a token ends. So a
piece of a text that ends with such a brace has the same tokens in another text.
-/

namespace PhpAtlas

open String (utf8Len)

/-- A piece of a text that ends with a closing brace: where it starts there, where it starts at the
end of another text, and what comes after it. -/
structure Slice where
  origin : Nat
  target : Nat
  after : List Char

namespace Slice

variable (K : Slice)

/-- The text goes on in the piece. -/
def Holds (cs : List Char) : Prop := K.after.length < cs.length

/-- The same place of the piece in both texts. -/
structure Beside (c c' : Cursor) : Prop where
  rest : ∃ w, c.rest = w ++ '\x7d' :: K.after ∧ c'.rest = w ++ ['\x7d']
  pos : c'.pos + K.origin = c.pos + K.target

variable {K} {c c' d d' : Cursor} {pos pos' n : Nat} {x y : Char} {cs us ds : List Char}

theorem Holds.of_le (h : K.Holds cs) (hl : cs.length ≤ ds.length) : K.Holds ds :=
  Nat.lt_of_lt_of_le h hl

theorem Beside.holds (h : K.Beside c c') : K.Holds c.rest := by
  obtain ⟨⟨w, hc, -⟩, -⟩ := h
  rw [Holds, hc, List.length_append, List.length_cons]
  omega

theorem Beside.head (h : K.Beside c c') : c'.rest.head? = c.rest.head? := by
  obtain ⟨⟨w, hc, hc'⟩, -⟩ := h
  rw [hc, hc']
  cases w <;> rfl

theorem not_beside_nil : ¬K.Beside ⟨pos, []⟩ c' := fun h => Nat.not_lt_zero _ h.holds

/-- Both texts go on with the same character, and a brace alone can be the last one of the piece. -/
theorem Beside.uncons (h : K.Beside ⟨pos, x :: cs⟩ ⟨pos', us⟩) : ∃ us', us = x :: us' ∧
    (K.Holds cs → ∀ n, K.Beside ⟨pos + n, cs⟩ ⟨pos' + n, us'⟩) ∧ (x ≠ '\x7d' → K.Holds cs) := by
  obtain ⟨⟨w, hc, hc'⟩, hp⟩ := h
  simp only at hc hc' hp
  cases w with
  | nil =>
    cases hc
    exact ⟨[], hc', fun hk => absurd hk (lt_irrefl _), fun hx => absurd rfl hx⟩
  | cons y w =>
    cases hc
    refine ⟨_, hc', fun _ n => ⟨⟨w, rfl, rfl⟩, by simp only; omega⟩, fun _ => ?_⟩
    show K.after.length < (w ++ '\x7d' :: K.after).length
    rw [List.length_append, List.length_cons]
    omega

theorem Beside.tail (h : K.Beside ⟨pos, x :: cs⟩ ⟨pos', us⟩) (hk : K.Holds cs) :
    ∃ us', us = x :: us' ∧ us'.head? = cs.head? ∧
      ∀ n, K.Beside ⟨pos + n, cs⟩ ⟨pos' + n, us'⟩ := by
  obtain ⟨us', rfl, hb, -⟩ := h.uncons
  exact ⟨us', rfl, (hb hk 0).head, hb hk⟩

theorem Beside.tail₂ (h : K.Beside ⟨pos, x :: y :: cs⟩ ⟨pos', us⟩) (hk : K.Holds cs) :
    ∃ us', us = x :: y :: us' ∧ ∀ n, K.Beside ⟨pos + n, cs⟩ ⟨pos' + n, us'⟩ := by
  obtain ⟨us', rfl, -, hb⟩ := h.tail (hk.of_le (Nat.le_succ _))
  obtain ⟨us', rfl, -, hb⟩ := (hb 0).tail hk
  exact ⟨us', rfl, hb⟩

/-- Behind any character but a brace the same character comes next. -/
theorem Beside.second (h : K.Beside ⟨pos, x :: cs⟩ ⟨pos', us⟩) :
    ∃ us', us = x :: us' ∧ (x ≠ '\x7d' → us'.head? = cs.head?) := by
  obtain ⟨us', rfl, hb, hk⟩ := h.uncons
  exact ⟨us', rfl, fun hx => (hb (hk hx) 0).head⟩

end Slice

namespace Trivia

def isBlock : Trivia → Bool
  | block _ => true
  | _ => false

variable {doc : Option String} {pos depth : Nat} {c q : Char} {cs : List Char} {start : Cursor}

theorem skip_hash (h : cs.head? ≠ some '[') :
    skip doc .blank pos ('#' :: cs) = skip doc .line (pos + 1) cs := by
  cases cs with
  | nil => rfl
  | cons d cs =>
    rw [skip]
    rintro ds ⟨⟩
    exact h rfl

theorem skip_blank_cons (hc : c ≠ '#') (h : c = '/' → cs.head? ≠ some '/' ∧ cs.head? ≠ some '*') :
    skip doc .blank pos (c :: cs) =
      if isGap c then skip doc .blank (pos + 1) cs else (⟨pos, c :: cs⟩, doc) := by
  rw [skip]
  · rintro ds ⟨⟩
    exact absurd rfl hc
  · rintro ⟨⟩
    exact absurd rfl hc
  · rintro ds rfl rfl
    exact absurd rfl (h rfl).1
  · rintro ds rfl rfl
    exact absurd rfl (h rfl).2

theorem skip_line_cons (h : c = '?' → cs.head? ≠ some '>') : skip doc .line pos (c :: cs) =
    skip doc (if c == '\n' then .blank else .line) (pos + c.utf8Size) cs := by
  rw [skip]
  rintro ds rfl rfl
  exact absurd rfl (h rfl)

theorem skip_block_cons (h : c = '*' → cs.head? ≠ some '/') :
    skip doc (.block start) pos (c :: cs) = skip doc (.block start) (pos + c.utf8Size) cs := by
  rw [skip]
  rintro ds rfl rfl
  exact absurd rfl (h rfl)

theorem skip_quoted_cons (h : c ≠ '\\') : skip doc (.quoted depth q) pos (c :: cs) =
    skip doc (if c == q then .group depth else .quoted depth q) (pos + c.utf8Size) cs := by
  rw [skip]
  · rintro d ds rfl
    exact absurd rfl h
  · rintro rfl
    exact absurd rfl h

end Trivia

namespace Slice

variable {K : Slice} {c c' d d' : Cursor} {pos pos' n : Nat} {x y : Char} {cs us ds : List Char}

theorem beside_skipWhile {p : Char → Bool} (h : K.Beside ⟨pos, cs⟩ ⟨pos', us⟩)
    (hk : K.Holds (Cursor.skipWhile p pos cs).rest) :
    K.Beside (Cursor.skipWhile p pos cs) (Cursor.skipWhile p pos' us) := by
  induction cs generalizing pos pos' us with
  | nil => exact absurd h not_beside_nil
  | cons x cs ih =>
    obtain ⟨us, rfl, hb, -⟩ := h.uncons
    rw [Cursor.skipWhile, Cursor.skipWhile]
    rw [Cursor.skipWhile] at hk
    split
    · next hx =>
      rw [if_pos hx] at hk
      exact ih (hb (hk.of_le (Cursor.runs_skipWhile _ _ _).length_le) _) hk
    · exact h

/-! ## Texts -/

theorem takeBytes_append {u : List Char} (h : n ≤ utf8Len u) (rest : List Char) :
    takeBytes n (u ++ rest) = takeBytes n u := by
  have honto (taken : List Char) : takeBytesOnto taken n (u ++ rest) = takeBytesOnto taken n u := by
    induction u generalizing taken n with
    | nil =>
      obtain rfl : n = 0 := Nat.le_zero.mp h
      cases rest <;> rfl
    | cons c u ih =>
      cases n with
      | zero => rfl
      | succ n =>
        have hlen : utf8Len (c :: u) = utf8Len u + c.utf8Size := rfl
        rw [List.cons_append, takeBytesOnto, takeBytesOnto]
        split
        · exact ih (by omega) _
        · rfl
  rw [takeBytes, takeBytes, takeBytes?, takeBytes?, honto]

/-- The text between two places of the piece is the same. -/
theorem Beside.textTo {n' : Nat} (h : K.Beside c c') (hd : K.Beside d d') (hl : c.Leads d)
    (hn : n ≤ d.pos) (hn' : n' + K.origin = n + K.target) : c'.textTo n' = c.textTo n := by
  obtain ⟨⟨w, hdr, hdr'⟩, -⟩ := hd
  obtain ⟨u, hcr, hp⟩ := (hl.runs (by rw [hdr]; simp)).exists_append
  obtain ⟨⟨v, hv, hv'⟩, hpos⟩ := h
  obtain rfl : v = u ++ w := by
    refine List.append_cancel_right (?_ : _ ++ '\x7d' :: K.after = _ ++ '\x7d' :: K.after)
    rw [← hv, hcr, hdr, List.append_assoc]
  rw [Cursor.textTo, Cursor.textTo, hv, hv', List.append_assoc, List.append_assoc,
    takeBytes_append (by omega), takeBytes_append (by omega)]
  congr 1
  omega

/-- A brace ends what a pattern can cover. -/
theorem isPrefixOf_brace {pattern w : List Char} (hp : '\x7d' ∉ pattern) (rest : List Char) :
    pattern.isPrefixOf (w ++ '\x7d' :: rest) = pattern.isPrefixOf w := by
  induction w generalizing pattern with
  | nil =>
    cases pattern with
    | nil => rfl
    | cons x pattern =>
      have hx : (x == '\x7d') = false := beq_false_of_ne fun hx => hp (hx ▸ List.mem_cons_self)
      rw [List.nil_append, List.isPrefixOf_cons_cons, hx, Bool.false_and]
      rfl
  | cons y w ih =>
    cases pattern with
    | nil => rfl
    | cons x pattern =>
      rw [List.cons_append, List.isPrefixOf_cons_cons, List.isPrefixOf_cons_cons,
        ih fun hx => hp (List.mem_cons_of_mem _ hx)]

theorem Beside.isPrefixOf {pattern : List Char} (h : K.Beside c c') (hp : '\x7d' ∉ pattern) :
    pattern.isPrefixOf c'.rest = pattern.isPrefixOf c.rest := by
  obtain ⟨⟨w, hc, hc'⟩, -⟩ := h
  rw [hc, hc', isPrefixOf_brace hp, isPrefixOf_brace hp]

/-! ## Trivia -/

/-- The same inside of trivia; a block comment started at the same place of the piece. -/
inductive Alike (K : Slice) (c : Cursor) : Trivia → Trivia → Prop
  | same {inside : Trivia} (h : inside.isBlock = false) : Alike K c inside inside
  | block {start start' : Cursor} (h : K.Beside start start') (hl : start.Leads c) :
      Alike K c (.block start) (.block start')

theorem beside_doc? {start start' : Cursor} (h : K.Beside start start') (hl : start.Leads c)
    (hc : K.Beside c c') : Trivia.doc? start' c'.pos = Trivia.doc? start c.pos := by
  have hp := h.pos
  have hp' := hc.pos
  have hlen : c'.pos - start'.pos = c.pos - start.pos := by
    have := hl.pos_le
    omega
  rw [Trivia.doc?, Trivia.doc?, h.isPrefixOf (by decide), hlen, h.textTo hc hl le_rfl hp']

theorem head_ne (h : ∀ ds, cs = x :: ds → False) : cs.head? ≠ some x := by
  rintro hx
  obtain ⟨ds, rfl⟩ := List.head?_eq_some_iff.mp hx
  exact h ds rfl

theorem beside_skip {doc : Option String} {inside inside' : Trivia}
    (h : K.Beside ⟨pos, cs⟩ ⟨pos', us⟩) (hs : Alike K ⟨pos, cs⟩ inside inside')
    (hk : K.Holds (Trivia.skip doc inside pos cs).1.rest) :
    K.Beside (Trivia.skip doc inside pos cs).1 (Trivia.skip doc inside' pos' us).1 ∧
      (Trivia.skip doc inside' pos' us).2 = (Trivia.skip doc inside pos cs).2 := by
  have hle {doc : Option String} {inside : Trivia} {pos : Nat} {cs : List Char}
      (hk : K.Holds (Trivia.skip doc inside pos cs).1.rest) : K.Holds cs :=
    hk.of_le (Trivia.leads_skip _ _ _ _).length_le
  fun_induction Trivia.skip doc inside pos cs generalizing inside' pos' us with
  | case1 _ _ _ ih =>
    cases hs
    obtain ⟨us, rfl, hb⟩ := h.tail₂ (hle hk)
    rw [Trivia.skip]
    exact ih (hb 2) (.same rfl) hk
  | case2 _ _ _ hc ih =>
    cases hs
    obtain ⟨us, rfl, hd, hb⟩ := h.tail (hle hk)
    rw [Trivia.skip_hash (hd ▸ head_ne hc)]
    exact ih (hb 1) (.same rfl) hk
  | case3 _ _ _ ih =>
    cases hs
    obtain ⟨us, rfl, hb⟩ := h.tail₂ (hle hk)
    rw [Trivia.skip]
    exact ih (hb 2) (.same rfl) hk
  | case4 _ _ _ ih =>
    cases hs
    obtain ⟨us, rfl, hb⟩ := h.tail₂ (hle hk)
    rw [Trivia.skip]
    exact ih (hb 2) (.block h (.ascii rfl (.ascii rfl (.refl _)))) hk
  | case5 _ _ _ _ _ hh hs' hs'' hc ih =>
    cases hs
    obtain ⟨us, rfl, hd, hb⟩ := h.tail (hle hk)
    have hslash (hc : _ = '/') := hd ▸ And.intro (head_ne (hs' · hc)) (head_ne (hs'' · hc))
    rw [Trivia.skip_blank_cons hh hslash, if_pos hc]
    exact ih (hb 1) (.same rfl) hk
  | case6 _ _ c _ _ hh hs' hs'' hc =>
    cases hs
    obtain ⟨us, rfl, -, -⟩ := h.uncons
    have hslash (hc : c = '/') : us.head? ≠ some '/' ∧ us.head? ≠ some '*' := by
      obtain ⟨us', hu, hd⟩ := h.second
      obtain rfl := (List.cons.inj hu).2
      exact hd (hc ▸ by decide) ▸ And.intro (head_ne (hs' · hc)) (head_ne (hs'' · hc))
    rw [Trivia.skip_blank_cons hh hslash, if_neg hc]
    exact ⟨h, rfl⟩
  | case7 =>
    cases hs
    obtain ⟨us, rfl, hd⟩ := h.second
    obtain ⟨us, rfl⟩ := List.head?_eq_some_iff.mp (hd (by decide))
    exact ⟨h, rfl⟩
  | case8 _ _ c cs ht ih =>
    cases hs
    obtain ⟨us, rfl, hd, hb⟩ := h.tail (hle hk)
    rw [Trivia.skip_line_cons fun hc => hd ▸ head_ne (ht · hc)]
    refine ih (hb _) (.same ?_) hk
    split <;> rfl
  | case9 _ _ _ _ ih =>
    cases hs with
    | same h => cases h
    | block hs hl =>
      obtain ⟨us, rfl, hb⟩ := h.tail₂ (hle hk)
      have hdoc := beside_doc? hs (hl.trans (.ascii rfl (.ascii rfl (.refl _)))) (hb 2)
      rw [Trivia.skip, hdoc]
      exact ih (hb 2) (.same rfl) hk
  | case10 _ _ _ c cs hc ih =>
    cases hs with
    | same h => cases h
    | block hs hl =>
      obtain ⟨us, rfl, hd, hb⟩ := h.tail (hle hk)
      rw [Trivia.skip_block_cons fun he => hd ▸ head_ne (hc · he)]
      exact ih (hb _) (.block hs (hl.trans (.step (.refl _)))) hk
  | case11 => exact absurd h not_beside_nil
  | case12 _ _ _ c _ ih =>
    cases hs
    obtain ⟨us, rfl, -, hb⟩ := h.tail (hle hk)
    rw [Trivia.skip]
    refine ih (hb _) (.same ?_) hk
    unfold Trivia.inGroup
    repeat' split
    all_goals rfl
  | case13 _ _ _ _ c _ ih =>
    cases hs
    obtain ⟨us, rfl, hb⟩ := h.tail₂ (hle hk)
    have hb := hb (1 + c.utf8Size)
    rw [← Nat.add_assoc, ← Nat.add_assoc] at hb
    rw [Trivia.skip]
    exact ih hb (.same rfl) hk
  | case14 => exact absurd hk (Nat.not_lt_zero _)
  | case15 _ depth q _ c cs hesc hesc' ih =>
    cases hs
    obtain ⟨us, rfl, -, hb⟩ := h.tail (hle hk)
    rw [Trivia.skip_quoted_cons (ne_backslash hesc hesc')]
    refine ih (hb _) (.same ?_) hk
    split <;> rfl
  | case16 => exact absurd h not_beside_nil

end Slice

end PhpAtlas
