import PhpAtlas.Proofs.Token.Tiles

/-! # Backslashes at the end of a source

In a string in double quotes and in a quoted text of an attribute group a backslash takes
the next position with it, also where the source ends. No other token ends past the end
of the source, and none ends further than one position past it.
-/

namespace PhpAtlas

open String (utf8Len)

variable {a b c : Cursor} {cs mid rest : List Char} {pos : Nat} {doc : Option String} {q : Char}

/-- Where the text that is left ends. -/
def Cursor.textEnd (c : Cursor) : Nat := c.pos + utf8Len c.rest

theorem Cursor.Runs.textEnd_eq (h : a.Runs b) : b.textEnd = a.textEnd := by
  induction h with
  | refl => rfl
  | @step pos c cs b _ ih =>
    have hlen : utf8Len (c :: cs) = utf8Len cs + c.utf8Size := rfl
    rw [ih, textEnd, textEnd, hlen, Nat.add_assoc, Nat.add_comm c.utf8Size]

theorem Cursor.textEnd_cons (pos : Nat) (c : Char) (cs : List Char) :
    textEnd ⟨pos, c :: cs⟩ = textEnd ⟨pos + c.utf8Size, cs⟩ :=
  (Runs.step (.refl _)).textEnd_eq.symm

/-- The quoted text is not closed, and ends with a backslash that has nothing to escape. -/
inductive Quoted.OpenEscape (quote : Char) : List Char → Prop
  | last : OpenEscape quote ['\\']
  | escape {c : Char} {cs : List Char} (h : OpenEscape quote cs) : OpenEscape quote ('\\' :: c :: cs)
  | step {c : Char} {cs : List Char} (hq : c ≠ quote) (hb : c ≠ '\\') (h : OpenEscape quote cs) :
      OpenEscape quote (c :: cs)

/-- A backslash at the end of a string in double quotes moves past the end. -/
theorem Quoted.closing_of_openEscape (h : OpenEscape '"' cs) (pos : Nat) :
    (closing '"' pos cs).1 = ⟨Cursor.textEnd ⟨pos, cs⟩ + 1, []⟩ := by
  induction h generalizing pos with
  | last => rfl
  | @escape c cs _ ih =>
    rw [closing, ih, Cursor.textEnd_cons, Cursor.textEnd_cons]
    rfl
  | @step c cs hq hb h ih =>
    rw [closing, if_neg (by simpa using hq), ih, Cursor.textEnd_cons]
    · rintro d ds rfl
      exact absurd rfl hb
    · rintro rfl
      exact absurd rfl hb

theorem Quoted.runs_closing_or (pos : Nat) (cs : List Char) :
    Cursor.Runs ⟨pos, cs⟩ (closing '"' pos cs).1 ∨ OpenEscape '"' cs := by
  generalize hq : '"' = quote
  fun_induction closing quote pos cs with
  | case1 _ _ _ ih => exact ih.imp (fun h => .ascii rfl (.step h)) .escape
  | case2 => exact .inr .last
  | case3 _ _ _ _ _ hc =>
    obtain rfl := eq_of_beq hc
    exact .inl (.ascii (hq ▸ rfl) (.refl _))
  | case4 _ c cs hb hb' hc ih =>
    exact ih.imp .step (.step (by simpa using hc) (ne_backslash hb hb'))
  | case5 => exact .inl (.refl _)

namespace Trivia

/-- The same at the end of an attribute group with some brackets open. -/
inductive GroupEscape : Nat → List Char → Prop
  | here {depth : Nat} {q : Char} {cs : List Char} (hq : q = '\'' ∨ q = '"')
      (h : Quoted.OpenEscape q cs) : GroupEscape depth (q :: cs)
  | quoted {depth : Nat} {q : Char} {cs mid : List Char} (hq : q = '\'' ∨ q = '"')
      (h : QuotedRest q cs mid) (h' : GroupEscape depth mid) : GroupEscape depth (q :: cs)
  | inner {depth : Nat} {cs : List Char} (h : GroupEscape depth cs) (hd : 0 < depth) :
      GroupEscape (depth + 1) (']' :: cs)
  | nested {depth : Nat} {cs : List Char} (h : GroupEscape (depth + 1) cs) :
      GroupEscape depth ('[' :: cs)
  | step {depth : Nat} {c : Char} {cs : List Char} (hc : c ≠ '[' ∧ c ≠ ']')
      (hq : c ≠ '\'' ∧ c ≠ '"') (h : GroupEscape depth cs) : GroupEscape depth (c :: cs)

theorem GroupEscape.ne_nil {depth : Nat} (h : GroupEscape depth cs) : cs ≠ [] := by
  cases h <;> exact List.cons_ne_nil _ _

/-! ## What is skipped -/

/-- Skipping goes on in another state at another place of the text. -/
def GoesOn (doc : Option String) (t : Trivia) (pos : Nat) (cs : List Char) (u : Trivia)
    (rest : List Char) : Prop :=
  ∃ doc' pos', skip doc t pos cs = skip doc' u pos' rest ∧
    Cursor.textEnd ⟨pos', rest⟩ = Cursor.textEnd ⟨pos, cs⟩

variable {t u v : Trivia} {depth : Nat}

theorem GoesOn.trans (h : GoesOn doc t pos cs u mid) (h' : ∀ doc pos, GoesOn doc u pos mid v rest) :
    GoesOn doc t pos cs v rest := by
  obtain ⟨doc', pos', he, hr⟩ := h
  obtain ⟨doc'', pos'', he', hr'⟩ := h' doc' pos'
  exact ⟨doc'', pos'', he.trans he', hr'.trans hr⟩

theorem GoesOn.refl : GoesOn doc t pos cs t cs := ⟨doc, pos, rfl, rfl⟩

/-- The same without a comment that is kept, whatever comment there is. -/
def Silent (t : Trivia) (pos : Nat) (cs : List Char) (u : Trivia) (rest : List Char) : Prop :=
  ∃ pos', (∀ doc, skip doc t pos cs = skip doc u pos' rest) ∧
    Cursor.textEnd ⟨pos', rest⟩ = Cursor.textEnd ⟨pos, cs⟩

theorem Silent.trans (h : Silent t pos cs u mid) (h' : ∀ pos, Silent u pos mid v rest) :
    Silent t pos cs v rest := by
  obtain ⟨pos', he, hr⟩ := h
  obtain ⟨pos'', he', hr'⟩ := h' pos'
  exact ⟨pos'', fun doc => (he doc).trans (he' doc), hr'.trans hr⟩

theorem Silent.refl : Silent t pos cs t cs := ⟨pos, fun _ => rfl, rfl⟩

theorem Silent.goesOn (h : Silent t pos cs u rest) (doc : Option String) :
    GoesOn doc t pos cs u rest := by
  obtain ⟨pos', he, hr⟩ := h
  exact ⟨doc, pos', he doc, hr⟩

theorem silent_of_lineRest (h : LineRest cs mid) (pos : Nat) : Silent line pos cs blank mid := by
  induction h generalizing pos with
  | newline => exact ⟨pos, fun doc => by simp [skip, isGap]; rfl, rfl⟩
  | closeTag => exact ⟨pos, fun doc => by simp [skip, isGap], rfl⟩
  | cut => exact ⟨pos, fun doc => by simp [skip], rfl⟩
  | @step c cs rest hn ht h ih =>
    obtain ⟨pos', he, hr⟩ := ih (pos + c.utf8Size)
    refine ⟨pos', fun doc => ?_, by rw [hr, Cursor.textEnd_cons]⟩
    rw [skip, if_neg (by simpa using hn), he]
    rintro ds rfl
    exact fun hd => ht _ (by rw [hd])

/-- At the end of a block comment it is kept if it is a documentation comment. -/
theorem skip_of_blockRest (start : Cursor) (h : BlockRest cs mid) (pos : Nat) : ∃ pos',
    (∀ doc, skip doc (block start) pos cs = skip (doc? start pos' <|> doc) blank pos' mid) ∧
    Cursor.textEnd ⟨pos', mid⟩ = Cursor.textEnd ⟨pos, cs⟩ := by
  induction h generalizing pos with
  | @close cs =>
    refine ⟨pos + 2, fun doc => by rw [skip], ?_⟩
    rw [Cursor.textEnd_cons, Cursor.textEnd_cons]
    rfl
  | cut => exact ⟨pos, fun doc => by simp [skip], rfl⟩
  | @step c cs rest hc h ih =>
    obtain ⟨pos', he, hr⟩ := ih (pos + c.utf8Size)
    refine ⟨pos', fun doc => ?_, by rw [hr, Cursor.textEnd_cons]⟩
    rw [skip, he]
    rintro ds rfl
    exact fun hd => hc _ (by rw [hd])

theorem skip_step_quoted (depth : Nat) (c : Char) (cs : List Char) (hb : c ≠ '\\') :
    skip doc (quoted depth q) pos (c :: cs) =
      skip doc (if c == q then group depth else quoted depth q) (pos + c.utf8Size) cs := by
  rw [skip]
  · rintro d ds rfl
    exact absurd rfl hb
  · rintro rfl
    exact absurd rfl hb

theorem silent_of_quotedRest (h : QuotedRest q cs mid) (hm : mid ≠ []) (hq : q ≠ '\\')
    (pos : Nat) : Silent (quoted depth q) pos cs (group depth) mid := by
  induction h generalizing pos with
  | close =>
    refine ⟨_, fun doc => ?_, (Cursor.textEnd_cons ..).symm⟩
    rw [skip_step_quoted _ _ _ hq, if_pos (beq_self_eq_true q)]
  | @escape c cs rest h ih =>
    obtain ⟨pos', he, hr⟩ := ih hm (pos + 1 + c.utf8Size)
    refine ⟨pos', fun doc => by rw [skip, he], ?_⟩
    rw [hr, Cursor.textEnd_cons, Cursor.textEnd_cons]
    rfl
  | cut => exact absurd rfl hm
  | cutEscape => exact absurd rfl hm
  | @step c cs rest hne hb h ih =>
    obtain ⟨pos', he, hr⟩ := ih hm (pos + c.utf8Size)
    refine ⟨pos', fun doc => ?_, by rw [hr, Cursor.textEnd_cons]⟩
    rw [skip_step_quoted _ _ _ hb, if_neg (by simpa using hne), he]

theorem ne_backslash_of_quote (hq : q = '\'' ∨ q = '"') : q ≠ '\\' := by
  rintro rfl
  revert hq
  decide

theorem GroupRest.ne_nil (h : GroupRest depth cs rest) (hr : rest ≠ []) : cs ≠ [] := by
  cases h with
  | cut => exact hr
  | _ => exact List.cons_ne_nil _ _

theorem silent_inGroup (c : Char) (cs : List Char)
    (h : ∀ pos, Silent (inGroup depth c) pos cs u rest) (pos : Nat) :
    Silent (group depth) pos (c :: cs) u rest := by
  obtain ⟨pos', he, hr⟩ := h (pos + c.utf8Size)
  exact ⟨pos', fun doc => by rw [skip, he], by rw [hr, Cursor.textEnd_cons]⟩

theorem inGroup_quote (hq : q = '\'' ∨ q = '"') : inGroup depth q = quoted depth q := by
  rcases hq with rfl | rfl <;> rfl

theorem inGroup_step {c : Char} (hc : c ≠ '[' ∧ c ≠ ']') (hq : c ≠ '\'' ∧ c ≠ '"') :
    inGroup depth c = group depth := by
  simp [inGroup, hc, hq]

theorem inGroup_inner (hd : 0 < depth) : inGroup (depth + 1) ']' = group depth := by
  simp [inGroup, Nat.not_le.mpr (Nat.succ_lt_succ hd)]

theorem silent_of_groupRest (h : GroupRest depth cs rest) (hr : rest ≠ []) (pos : Nat) :
    Silent (group depth) pos cs blank rest := by
  induction h generalizing pos with
  | close => exact silent_inGroup _ _ (fun _ => .refl) pos
  | inner h hd ih => exact silent_inGroup _ _ (by rw [inGroup_inner hd]; exact ih hr) pos
  | nested h ih => exact silent_inGroup '[' _ (ih hr) pos
  | quoted hq h h' ih =>
    refine silent_inGroup _ _ (fun pos => ?_) pos
    rw [inGroup_quote hq]
    exact (silent_of_quotedRest h (h'.ne_nil hr) (ne_backslash_of_quote hq) pos).trans (ih hr)
  | cut => exact absurd rfl hr
  | step hc hq h ih => exact silent_inGroup _ _ (by rw [inGroup_step hc hq]; exact ih hr) pos

theorem Gaps.ne_nil (h : Gaps cs rest) (hr : rest ≠ []) : cs ≠ [] := by
  cases h with
  | none => exact hr
  | _ => exact List.cons_ne_nil _ _

theorem skip_gap {c : Char} (hc : isGap c = true) :
    skip doc blank pos (c :: cs) = skip doc blank (pos + 1) cs := by
  have hne : c ≠ '#' ∧ c ≠ '/' := by constructor <;> (rintro rfl; cases hc)
  rw [skip, if_pos hc]
  · rintro ds rfl
    exact absurd rfl hne.1
  · rintro rfl
    exact absurd rfl hne.1
  · rintro ds rfl
    exact absurd rfl hne.2
  · rintro ds rfl
    exact absurd rfl hne.2

theorem silent_of_blank {c : Char} (hc : isGap c = true) (pos : Nat) :
    Silent blank pos (c :: cs) blank cs := by
  refine ⟨pos + 1, fun doc => skip_gap hc, ?_⟩
  rw [Cursor.textEnd_cons, utf8Size_of_isGap hc]

theorem silent_of_hash (hg : ∀ ds, cs ≠ '[' :: ds) (h : LineRest cs mid) (pos : Nat) :
    Silent blank pos ('#' :: cs) blank mid := by
  obtain ⟨pos', he, hp⟩ := silent_of_lineRest h (pos + 1)
  refine ⟨pos', fun doc => ?_, by rw [hp, Cursor.textEnd_cons]; rfl⟩
  rw [skip, he]
  exact hg

theorem silent_of_slashes (h : LineRest cs mid) (pos : Nat) :
    Silent blank pos ('/' :: '/' :: cs) blank mid := by
  obtain ⟨pos', he, hp⟩ := silent_of_lineRest h (pos + 2)
  refine ⟨pos', fun doc => by rw [skip, he], ?_⟩
  rw [hp, Cursor.textEnd_cons, Cursor.textEnd_cons]
  rfl

theorem silent_of_group (h : GroupRest 1 cs mid) (hm : mid ≠ []) (pos : Nat) :
    Silent blank pos ('#' :: '[' :: cs) blank mid := by
  obtain ⟨pos', he, hp⟩ := silent_of_groupRest h hm (pos + 2)
  refine ⟨pos', fun doc => by rw [skip, he], ?_⟩
  rw [hp, Cursor.textEnd_cons, Cursor.textEnd_cons]
  rfl

/-- A block comment from its opening on. -/
theorem skip_block (h : BlockRest cs mid) (pos : Nat) : ∃ pos',
    (∀ doc, skip doc blank pos ('/' :: '*' :: cs) =
      skip (doc? ⟨pos, '/' :: '*' :: cs⟩ pos' <|> doc) blank pos' mid) ∧
    Cursor.textEnd ⟨pos', mid⟩ = Cursor.textEnd ⟨pos, '/' :: '*' :: cs⟩ := by
  obtain ⟨pos', he, hp⟩ := skip_of_blockRest ⟨pos, '/' :: '*' :: cs⟩ h (pos + 2)
  refine ⟨pos', fun doc => by rw [skip, he], ?_⟩
  rw [hp, Cursor.textEnd_cons, Cursor.textEnd_cons]
  rfl

theorem goesOn_of_gaps (h : Gaps cs rest) (hr : rest ≠ []) (doc : Option String) (pos : Nat) :
    GoesOn doc blank pos cs blank rest := by
  induction h generalizing doc pos with
  | none => exact .refl
  | blank hc _ ih => exact ((silent_of_blank hc pos).goesOn doc).trans (ih hr)
  | hash hg h _ ih => exact ((silent_of_hash hg h pos).goesOn doc).trans (ih hr)
  | slashes h _ ih => exact ((silent_of_slashes h pos).goesOn doc).trans (ih hr)
  | block h _ ih =>
    obtain ⟨pos', he, hp⟩ := skip_block h pos
    obtain ⟨doc', pos'', he', hp'⟩ := ih hr _ pos'
    exact ⟨doc', pos'', (he doc).trans he', hp'.trans hp⟩
  | group h h' ih => exact ((silent_of_group h (h'.ne_nil hr) pos).goesOn doc).trans (ih hr)

/-! ## Where skipping ends -/

theorem skip_of_openEscape (h : Quoted.OpenEscape q cs) (doc : Option String) (pos : Nat) :
    (skip doc (quoted depth q) pos cs).1 = ⟨Cursor.textEnd ⟨pos, cs⟩ + 1, []⟩ := by
  induction h generalizing pos with
  | last => rw [skip]; rfl
  | escape h ih =>
    rw [skip, ih, Cursor.textEnd_cons, Cursor.textEnd_cons]
    rfl
  | step hne hb h ih =>
    rw [skip_step_quoted _ _ _ hb, if_neg (by simpa using hne), ih, Cursor.textEnd_cons]

theorem skip_of_groupEscape (h : GroupEscape depth cs) (doc : Option String) (pos : Nat) :
    (skip doc (group depth) pos cs).1 = ⟨Cursor.textEnd ⟨pos, cs⟩ + 1, []⟩ := by
  induction h generalizing doc pos with
  | here hq h => rw [skip, inGroup_quote hq, skip_of_openEscape h, Cursor.textEnd_cons]
  | quoted hq h h' ih =>
    obtain ⟨pos', he, hp⟩ :=
      silent_of_quotedRest h h'.ne_nil (ne_backslash_of_quote hq) (pos + _)
    rw [skip, inGroup_quote hq, he, ih, hp, Cursor.textEnd_cons]
  | inner h hd ih => rw [skip, inGroup_inner hd, ih, Cursor.textEnd_cons]
  | nested h ih => rw [skip, Cursor.textEnd_cons]; exact ih ..
  | step hc hq h ih => rw [skip, inGroup_step hc hq, ih, Cursor.textEnd_cons]

/-- An attribute group that ends with the text in this way, behind other trivia. -/
def Escapes (cs : List Char) : Prop := ∃ ds, Gaps cs ('#' :: '[' :: ds) ∧ GroupEscape 1 ds

theorem skip_of_escapes (h : Escapes cs) (doc : Option String) (pos : Nat) :
    (skip doc blank pos cs).1 = ⟨Cursor.textEnd ⟨pos, cs⟩ + 1, []⟩ := by
  obtain ⟨ds, hg, he⟩ := h
  obtain ⟨doc', pos', hs, hp⟩ := goesOn_of_gaps hg (List.cons_ne_nil _ _) doc pos
  rw [hs, skip, skip_of_groupEscape he, ← hp, Cursor.textEnd_cons, Cursor.textEnd_cons]
  rfl

/-- The same from any state on. -/
def EscapesIn : Trivia → List Char → Prop
  | blank, cs => Escapes cs
  | line, cs => ∃ mid, LineRest cs mid ∧ Escapes mid
  | block _, cs => ∃ mid, BlockRest cs mid ∧ Escapes mid
  | group depth, cs =>
      0 < depth → GroupEscape depth cs ∨ ∃ mid, GroupRest depth cs mid ∧ Escapes mid
  | quoted depth q, cs => 0 < depth → Quoted.OpenEscape q cs ∨ ∃ mid, QuotedRest q cs mid ∧
      (GroupEscape depth mid ∨ ∃ rest, GroupRest depth mid rest ∧ Escapes rest)

theorem Escapes.of_blank {c : Char} (hc : isGap c = true) (h : Escapes cs) : Escapes (c :: cs) :=
  let ⟨ds, hg, he⟩ := h
  ⟨ds, .blank hc hg, he⟩

theorem escapesIn_inGroup {c : Char} (h : EscapesIn (inGroup depth c) cs) :
    EscapesIn (group depth) (c :: cs) := by
  intro hd
  unfold inGroup at h
  split at h
  · next hc =>
    obtain rfl := eq_of_beq hc
    exact (h (Nat.succ_pos _)).imp .nested fun ⟨mid, hg, he⟩ => ⟨mid, .nested hg, he⟩
  · next ho =>
    split at h
    · next hc =>
      obtain rfl := eq_of_beq hc
      split at h
      · obtain rfl : depth = 1 := by omega
        exact .inr ⟨cs, .close, h⟩
      · obtain ⟨depth, rfl⟩ := Nat.exists_eq_add_one.mpr hd
        have hd' : 0 < depth := by omega
        exact (h hd').imp (.inner · hd') fun ⟨mid, hg, he⟩ => ⟨mid, .inner hg hd', he⟩
    · next hc =>
      split at h
      · next hq =>
        have hq : c = '\'' ∨ c = '"' := by simpa using hq
        rcases h hd with h | ⟨mid, hqr, hg | ⟨rest, hg, he⟩⟩
        · exact .inl (.here hq h)
        · exact .inl (.quoted hq hqr hg)
        · exact .inr ⟨rest, .quoted hq hqr hg, he⟩
      · next hq =>
        have hc : c ≠ '[' ∧ c ≠ ']' := ⟨by simpa using ho, by simpa using hc⟩
        have hq : c ≠ '\'' ∧ c ≠ '"' := by simpa using hq
        exact (h hd).imp (.step hc hq) fun ⟨mid, hg, he⟩ => ⟨mid, .step hc hq hg, he⟩

/-- Skipping stays in the text in all other cases. -/
theorem runs_skip_or (doc : Option String) (state : Trivia) (pos : Nat) (cs : List Char) :
    Cursor.Runs ⟨pos, cs⟩ (skip doc state pos cs).1 ∨ EscapesIn state cs := by
  fun_induction skip doc state pos cs with
  | case1 _ _ cs ih =>
    refine ih.imp (fun h => .ascii rfl (.ascii rfl h)) fun h => ?_
    rcases h Nat.one_pos with h | ⟨mid, hg, ds, hr, he⟩
    · exact ⟨cs, .none, h⟩
    · exact ⟨ds, .group hg hr, he⟩
  | case2 _ _ _ hc ih =>
    refine ih.imp (.ascii rfl) fun h => ?_
    obtain ⟨mid, hl, ds, hr, he⟩ := h
    exact ⟨ds, .hash hc hl hr, he⟩
  | case3 _ _ _ ih =>
    refine ih.imp (fun h => .ascii rfl (.ascii rfl h)) fun h => ?_
    obtain ⟨mid, hl, ds, hr, he⟩ := h
    exact ⟨ds, .slashes hl hr, he⟩
  | case4 _ _ _ ih =>
    refine ih.imp (fun h => .ascii rfl (.ascii rfl h)) fun h => ?_
    obtain ⟨mid, hb, ds, hr, he⟩ := h
    exact ⟨ds, .block hb hr, he⟩
  | case5 _ _ _ _ _ _ _ _ hc ih => exact ih.imp (.ascii (utf8Size_of_isGap hc)) (.of_blank hc)
  | case6 => exact .inl (.refl _)
  | case7 => exact .inl (.refl _)
  | case8 _ _ c cs ht ih =>
    refine ih.imp .step fun h => ?_
    by_cases hc : c = '\n'
    · subst hc
      exact ⟨_, .newline, .of_blank (by decide) h⟩
    · rw [if_neg (by simpa using hc)] at h
      obtain ⟨mid, hl, hr⟩ := h
      refine ⟨mid, .step hc ?_ hl, hr⟩
      rintro ds ⟨⟩
      exact ht ds rfl rfl
  | case9 _ _ _ _ ih =>
    exact ih.imp (fun h => .ascii rfl (.ascii rfl h)) fun h => ⟨_, .close, h⟩
  | case10 _ _ _ c cs hc ih =>
    refine ih.imp .step fun h => ?_
    obtain ⟨mid, hb, hr⟩ := h
    refine ⟨mid, .step ?_ hb, hr⟩
    rintro ds ⟨⟩
    exact hc ds rfl rfl
  | case11 => exact .inl (.refl _)
  | case12 _ _ _ _ _ ih => exact ih.imp .step escapesIn_inGroup
  | case13 _ _ _ _ _ _ ih =>
    refine ih.imp (fun h => .ascii rfl (.step h)) fun h hd => ?_
    rcases h hd with h | ⟨mid, hq, hr⟩
    · exact .inl (.escape h)
    · exact .inr ⟨mid, .escape hq, hr⟩
  | case14 => exact .inr fun _ => .inl .last
  | case15 _ depth q _ c cs hb hb' ih =>
    have hc := ne_backslash hb hb'
    refine ih.imp .step fun h hd => ?_
    by_cases hq : c = q
    · subst hq
      rw [if_pos (beq_self_eq_true c)] at h
      exact .inr ⟨_, .close, h hd⟩
    · rw [if_neg (by simpa using hq)] at h
      rcases h hd with h | ⟨mid, hqr, hr⟩
      · exact .inl (.step hq hc h)
      · exact .inr ⟨mid, .step hq hc hqr, hr⟩
  | case16 => exact .inl (.refl _)

end Trivia

/-! ## Tokens that end past the end -/

namespace Token

open Trivia

/-- The next token is a string in double quotes that ends like this, or there is an attribute group
before it that does. -/
def Dangles (cs : List Char) : Prop :=
  Escapes cs ∨ ∃ ds, Gaps cs ('"' :: ds) ∧ Quoted.OpenEscape '"' ds

theorem not_dangles_nil : ¬Dangles [] := by
  rintro (⟨ds, hg, -⟩ | ⟨ds, hg, -⟩) <;> cases hg

theorem next_of_dangles {place : Cursor} (h : Dangles place.rest) :
    (next true place).2.1 = ⟨place.textEnd + 1, []⟩ := by
  obtain ⟨pos, cs⟩ := place
  rcases h with h | ⟨ds, hg, he⟩
  · have hs := skip_of_escapes h none pos
    simp only [next, if_true]
    rw [hs]
    rfl
  · obtain ⟨doc, pos', hs, hp⟩ := goesOn_of_gaps hg (List.cons_ne_nil _ _) none pos
    have hstart : (skip none .blank pos cs).1 = ⟨pos', '"' :: ds⟩ := by simp [hs, skip, isGap]
    simp only [next, if_true]
    rw [hstart]
    show (Lexeme.quoted '"' ⟨pos' + 1, ds⟩).after = _
    rw [Lexeme.after_quoted, Quoted.closing_of_openEscape he, ← hp, Cursor.textEnd_cons]
    rfl

theorem runs_next_or (inTags : Bool) (place : Cursor) :
    place.Runs (next inTags place).2.1 ∨ inTags = true ∧ Dangles place.rest := by
  cases inTags with
  | false => exact .inl (Lexeme.runs_outsideTags place)
  | true =>
    have hg : Gaps place.rest (skip none .blank place.pos place.rest).1.rest :=
      passes_skip none .blank place.pos place.rest
    rcases runs_skip_or none .blank place.pos place.rest with hs | he
    · show place.Runs (Lexeme.inTags (skip none .blank place.pos place.rest).1).after ∨ _
      generalize (skip none .blank place.pos place.rest).1 = start at hs hg
      by_cases hq : ∃ ds, start.rest = '"' :: ds
      · obtain ⟨pos, _⟩ := start
        obtain ⟨ds, rfl⟩ := hq
        refine (Quoted.runs_closing_or (pos + 1) ds).imp (fun hc => hs.trans (.ascii rfl ?_))
          fun he => ⟨rfl, .inr ⟨ds, hg, he⟩⟩
        exact (Lexeme.after_quoted '"' ⟨pos + 1, ds⟩).symm ▸ hc
      · exact .inl (hs.trans (Lexeme.runs_inTags (not_exists.mp hq)))
    · exact .inr ⟨rfl, .inl he⟩

/-- Inside of tags the scanner comes to such a string or attribute group. -/
def Dangling (source : List Char) : Prop :=
  ∃ n, (stateAfter source n).1 = true ∧ Dangles (stateAfter source n).2.rest

/-- The text of a place ends with the source, or the place is one position past the end. -/
def Close (source : List Char) (c : Cursor) : Prop :=
  c.textEnd = utf8Len source ∨ c = ⟨utf8Len source + 1, []⟩

theorem stateAfter_succ (source : List Char) (n : Nat) : (stateAfter source (n + 1)).2 =
    (next (stateAfter source n).1 (stateAfter source n).2).2.1 := rfl

theorem close_stateAfter (source : List Char) (n : Nat) : Close source (stateAfter source n).2 := by
  induction n with
  | zero => exact .inl (Nat.zero_add _)
  | succ n ih =>
    have hstep := stateAfter_succ source n
    rcases ih with he | he
    · rcases runs_next_or (stateAfter source n).1 (stateAfter source n).2 with hr | ⟨hi, hd⟩
      · exact .inl (hstep ▸ hr.textEnd_eq.trans he)
      · exact .inr (by rw [hstep, hi, next_of_dangles hd, he])
    · exact .inr (by rw [hstep, he, next_nil])

theorem textEnd_stateAfter {source : List Char} (h : ¬Dangling source) (n : Nat) :
    (stateAfter source n).2.textEnd = utf8Len source := by
  induction n with
  | zero => exact Nat.zero_add _
  | succ n ih =>
    rcases runs_next_or (stateAfter source n).1 (stateAfter source n).2 with hr | hd
    · exact hr.textEnd_eq.trans ih
    · exact absurd ⟨n, hd⟩ h

theorem Close.pos_le {source : List Char} (h : Close source c) : c.pos ≤ utf8Len source + 1 := by
  rcases h with h | rfl
  · exact (Nat.le_add_right _ _).trans (h.le.trans (Nat.le_succ _))
  · exact le_rfl

/-- No token ends further than one position past the end of the source, and none ends past it if
the source does not end with a backslash like this. -/
theorem stop_le (source : List Char) : (∀ t ∈ ofSource source, t.stop ≤ utf8Len source + 1) ∧
    ((∀ t ∈ ofSource source, t.stop ≤ utf8Len source) ↔ ¬Dangling source) := by
  obtain ⟨n, -, ht, he⟩ := scanning_tiles source
  have hmem (t : Token) : t ∈ ofSource source ↔ ∃ k ≤ n, nth source k = t := by
    simp only [he, List.mem_map, List.mem_range, Nat.lt_succ_iff]
  refine ⟨fun t h => ?_, fun h ⟨k, hi, hd⟩ => ?_, fun hd t h => ?_⟩
  · obtain ⟨k, -, rfl⟩ := (hmem t).mp h
    exact ht.place k ▸ (close_stateAfter source (k + 1)).pos_le
  · -- After the end of the file there is no text to end like this.
    have hk : k ≤ n := by
      by_contra hk
      rw [stateAfter_endOfFile ((ht.endOfFile n).mpr le_rfl) (not_le.mp hk)] at hd
      exact not_dangles_nil hd
    have hstop := h _ ((hmem _).mpr ⟨k, hk, rfl⟩)
    rw [← ht.place k, stateAfter_succ, hi, next_of_dangles hd] at hstop
    rcases close_stateAfter source k with he | he
    · rw [he] at hstop
      exact absurd hstop (Nat.not_succ_le_self _)
    · rw [he] at hd
      exact not_dangles_nil hd
  · obtain ⟨k, -, rfl⟩ := (hmem t).mp h
    rw [← ht.place k, ← textEnd_stateAfter hd (k + 1)]
    exact Nat.le_add_right _ _

end Token

end PhpAtlas
