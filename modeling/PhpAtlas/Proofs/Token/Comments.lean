import PhpAtlas.Proofs.Token.Overrun

/-! # Documentation comments before tokens

Of the documentation comments in the trivia before a token the last one is kept
with the token. Where it stands in the source is known: behind the token before,
and in front of the token itself.
-/

namespace PhpAtlas

open String (utf8Len)

variable {cs mid rest c behind body : List Char} {pos : Nat} {doc : Option String}

namespace Trivia

/-! ## What trivia leaves -/

theorem LineRest.suffix (h : LineRest cs rest) : rest <:+ cs := by
  induction h with
  | newline | closeTag | cut => exact List.suffix_rfl
  | step _ _ _ ih => exact ih.trans (List.suffix_cons _ _)

theorem BlockRest.suffix (h : BlockRest cs rest) : rest <:+ cs := by
  induction h with
  | close => exact ⟨['*', '/'], rfl⟩
  | cut => exact List.suffix_rfl
  | step _ _ ih => exact ih.trans (List.suffix_cons _ _)

theorem QuotedRest.suffix {q : Char} (h : QuotedRest q cs rest) : rest <:+ cs := by
  induction h with
  | close => exact List.suffix_cons _ _
  | @escape c _ _ _ ih => exact ih.trans ⟨['\\', c], rfl⟩
  | cut => exact List.suffix_rfl
  | cutEscape => exact List.nil_suffix
  | step _ _ _ ih => exact ih.trans (List.suffix_cons _ _)

theorem GroupRest.suffix {depth : Nat} (h : GroupRest depth cs rest) : rest <:+ cs := by
  induction h with
  | close => exact List.suffix_cons _ _
  | inner _ _ ih | nested _ ih | step _ _ _ ih => exact ih.trans (List.suffix_cons _ _)
  | quoted _ h _ ih => exact (ih.trans h.suffix).trans (List.suffix_cons _ _)
  | cut => exact List.suffix_rfl

theorem Gaps.suffix (h : Gaps cs rest) : rest <:+ cs := by
  induction h with
  | none => exact List.suffix_rfl
  | blank _ _ ih => exact ih.trans (List.suffix_cons _ _)
  | hash _ h _ ih => exact (ih.trans h.suffix).trans (List.suffix_cons _ _)
  | slashes h _ ih => exact (ih.trans h.suffix).trans ⟨['/', '/'], rfl⟩
  | block h _ ih => exact (ih.trans h.suffix).trans ⟨['/', '*'], rfl⟩
  | group h _ ih => exact (ih.trans h.suffix).trans ⟨['#', '['], rfl⟩

theorem Gaps.trans (h : Gaps cs mid) (h' : Gaps mid rest) : Gaps cs rest := by
  induction h with
  | none => exact h'
  | blank hc _ ih => exact .blank hc (ih h')
  | hash hg h _ ih => exact .hash hg h (ih h')
  | slashes h _ ih => exact .slashes h (ih h')
  | block h _ ih => exact .block h (ih h')
  | group h _ ih => exact .group h (ih h')

/-! ## Documentation comments -/

/-- The text begins with the block comment `c`, which opens with `/**` and has more than four
bytes. -/
structure DocComment (c behind : List Char) : Prop where
  comment : ∃ body, c ++ behind = '/' :: '*' :: body ∧ BlockRest body behind
  opening : "/**".toList <+: c
  long : 4 < utf8Len c

/-- There is a documentation comment in the trivia between the two texts. -/
def HasDoc (cs rest : List Char) : Prop :=
  ∃ c behind, Gaps cs (c ++ behind) ∧ DocComment c behind ∧ Gaps behind rest

/-- The last documentation comment in the trivia is `c`. -/
def LastDoc (cs c rest : List Char) : Prop :=
  ∃ behind, Gaps cs (c ++ behind) ∧ DocComment c behind ∧ Gaps behind rest ∧ ¬HasDoc behind rest

theorem DocComment.gaps (h : DocComment c behind) : Gaps (c ++ behind) behind := by
  obtain ⟨body, hb, hr⟩ := h.comment
  rw [hb]
  exact .block hr .none

theorem DocComment.ne_nil (h : DocComment c behind) : c ≠ [] := by
  rintro rfl
  cases h.opening.length_le

theorem doc?_of_docComment (h : DocComment c behind) (pos : Nat) :
    doc? ⟨pos, c ++ behind⟩ (pos + utf8Len c) = some (String.ofList c) := by
  have hp : "/**".toList.isPrefixOf (c ++ behind) = true :=
    List.isPrefixOf_iff_prefix.mpr (h.opening.trans (List.prefix_append _ _))
  rw [doc?, Nat.add_sub_cancel_left, hp, Cursor.textTo_append, Bool.true_and]
  exact if_pos (decide_eq_true h.long)

theorem docComment_of_doc? (hb : c ++ behind = '/' :: '*' :: body) (hr : BlockRest body behind)
    (hd : doc? ⟨pos, c ++ behind⟩ (pos + utf8Len c) ≠ none) : DocComment c behind := by
  rw [doc?, Nat.add_sub_cancel_left] at hd
  obtain ⟨hp, hl⟩ : "/**".toList.isPrefixOf (c ++ behind) = true ∧ 4 < utf8Len c := by
    by_contra hn
    rw [if_neg (by simpa using hn)] at hd
    exact hd rfl
  refine ⟨⟨body, hb, hr⟩, ?_, hl⟩
  apply List.prefix_of_prefix_length_le (List.isPrefixOf_iff_prefix.mp hp) (List.prefix_append _ _)
  -- Three characters are the opening, and two of them have no more than two bytes.
  obtain ⟨x, rfl⟩ : ∃ x, c = '/' :: '*' :: x := by
    obtain ⟨x, rfl⟩ := hr.suffix
    exact ⟨x, List.append_cancel_right hb⟩
  cases x with
  | nil => exact absurd hl (by decide)
  | cons => simp

theorem skip_docComment (h : DocComment c behind) (doc : Option String) (pos : Nat) :
    skip doc blank pos (c ++ behind) =
      skip (some (String.ofList c)) blank (pos + utf8Len c) behind := by
  obtain ⟨body, hb, hr⟩ := h.comment
  obtain ⟨pos', he, hp⟩ := skip_block hr pos
  rw [← hb] at he hp
  obtain rfl : pos' = pos + utf8Len c := by
    simp only [Cursor.textEnd, String.utf8Len_append] at hp
    omega
  rw [he, doc?_of_docComment h]
  rfl

theorem silent_of_not_docComment (hb : c ++ behind = '/' :: '*' :: body)
    (hr : BlockRest body behind) (hn : ¬DocComment c behind) (pos : Nat) :
    Silent blank pos (c ++ behind) blank behind := by
  obtain ⟨pos', he, hp⟩ := skip_block hr pos
  rw [← hb] at he hp
  obtain rfl : pos' = pos + utf8Len c := by
    simp only [Cursor.textEnd, String.utf8Len_append] at hp
    omega
  have hd : doc? ⟨pos, c ++ behind⟩ (pos + utf8Len c) = none :=
    by_contra fun hd => hn (docComment_of_doc? hb hr hd)
  refine ⟨_, fun doc => ?_, hp⟩
  rw [he, hd]
  rfl

/-- No documentation comment is passed between the two texts. -/
def Plain (cs rest : List Char) : Prop := ∀ pos, Silent blank pos cs blank rest

/-- The comment is passed between the two texts, and no other one after it. -/
def PassesLast (cs c rest : List Char) : Prop :=
  ∃ behind, Gaps cs (c ++ behind) ∧ DocComment c behind ∧ Gaps behind rest ∧ Plain behind rest

theorem PassesLast.before (hg : Gaps cs mid) (h : PassesLast mid c rest) : PassesLast cs c rest :=
  let ⟨behind, hm, h⟩ := h
  ⟨behind, hg.trans hm, h⟩

theorem plain_or_passesLast (h : Gaps cs rest) (hr : rest ≠ []) :
    Plain cs rest ∨ ∃ c, PassesLast cs c rest := by
  have step {cs mid rest : List Char} (hs : Plain cs mid) (hg : Gaps cs mid)
      (ih : Plain mid rest ∨ ∃ c, PassesLast mid c rest) :
      Plain cs rest ∨ ∃ c, PassesLast cs c rest :=
    ih.imp (fun h pos => (hs pos).trans h) fun ⟨c, h⟩ => ⟨c, h.before hg⟩
  induction h with
  | none => exact .inl fun _ => .refl
  | blank hc _ ih => exact step (silent_of_blank hc) (.blank hc .none) (ih hr)
  | hash hg h _ ih => exact step (silent_of_hash hg h) (.hash hg h .none) (ih hr)
  | slashes h _ ih => exact step (silent_of_slashes h) (.slashes h .none) (ih hr)
  | group h h' ih => exact step (silent_of_group h (h'.ne_nil hr)) (.group h .none) (ih hr)
  | @block cs mid rest h h' ih =>
    obtain ⟨x, hx⟩ := h.suffix
    have hb : ('/' :: '*' :: x) ++ mid = '/' :: '*' :: cs := congrArg ('/' :: '*' :: ·) hx
    rcases ih hr with hp | ⟨c, hl⟩
    · by_cases hd : DocComment ('/' :: '*' :: x) mid
      · exact .inr ⟨_, mid, hb ▸ .none, hd, h', hp⟩
      · exact step (hb ▸ silent_of_not_docComment hb h hd) (.block h .none) (.inl hp)
    · exact .inr ⟨c, hl.before (.block h .none)⟩

/-! ## What skipping keeps -/

/-- Nothing is skipped in front of the text. -/
def Unskipped (rest : List Char) : Prop := ∀ doc pos, skip doc blank pos rest = (⟨pos, rest⟩, doc)

theorem unskipped_skip (doc : Option String) (state : Trivia) (pos : Nat) (cs : List Char) :
    Unskipped (skip doc state pos cs).1.rest := by
  fun_induction skip doc state pos cs with
  | case6 _ _ _ _ _ _ _ _ hc =>
    intro doc pos
    rw [skip, if_neg hc]
    all_goals assumption
  | case7 => exact fun doc pos => by simp [skip, isGap]
  | case11 | case14 => exact fun doc pos => by simp [skip]
  | case16 => exact fun doc pos => by simp [skip]
  | _ => assumption

theorem Plain.doc_skip (h : Plain cs rest) (hu : Unskipped rest) (doc : Option String) (pos : Nat) :
    (skip doc blank pos cs).2 = doc := by
  obtain ⟨pos', he, -⟩ := h pos
  rw [he, hu]

theorem PassesLast.doc_skip (h : PassesLast cs c rest) (hu : Unskipped rest) (doc : Option String)
    (pos : Nat) : (skip doc blank pos cs).2 = some (String.ofList c) := by
  obtain ⟨behind, hg, hd, -, hp⟩ := h
  have hne : c ++ behind ≠ [] := List.append_ne_nil_of_left_ne_nil hd.ne_nil behind
  obtain ⟨doc', pos', he, -⟩ := goesOn_of_gaps hg hne doc pos
  rw [he, skip_docComment hd, hp.doc_skip hu]

theorem HasDoc.passesLast (h : HasDoc cs rest) (hr : rest ≠ []) : ∃ c, PassesLast cs c rest := by
  obtain ⟨c, behind, hg, hd, hb⟩ := h
  rcases plain_or_passesLast hb hr with hp | ⟨c', hl⟩
  · exact ⟨c, behind, hg, hd, hb, hp⟩
  · exact ⟨c', hl.before (hg.trans hd.gaps)⟩

theorem Plain.not_hasDoc (h : Plain cs rest) (hu : Unskipped rest) (hr : rest ≠ []) :
    ¬HasDoc cs rest := by
  intro hd
  obtain ⟨c, hl⟩ := hd.passesLast hr
  have hnone := h.doc_skip hu none 0
  rw [hl.doc_skip hu] at hnone
  cases hnone

theorem passesLast_iff (hu : Unskipped rest) (hr : rest ≠ []) :
    PassesLast cs c rest ↔ LastDoc cs c rest := by
  constructor
  · rintro ⟨behind, hg, hd, hb, hp⟩
    exact ⟨behind, hg, hd, hb, hp.not_hasDoc hu hr⟩
  · rintro ⟨behind, hg, hd, hb, hn⟩
    refine ⟨behind, hg, hd, hb, (plain_or_passesLast hb hr).resolve_right ?_⟩
    rintro ⟨c', behind', hg', hd', hb', -⟩
    exact hn ⟨c', behind', hg', hd', hb'⟩

theorem HasDoc.lastDoc (h : HasDoc cs rest) (hu : Unskipped rest) (hr : rest ≠ []) :
    ∃ c, LastDoc cs c rest :=
  let ⟨c, hl⟩ := h.passesLast hr
  ⟨c, (passesLast_iff hu hr).mp hl⟩

/-- Skipping keeps the last documentation comment. -/
theorem doc_skip_iff (h : Gaps cs rest) (hu : Unskipped rest) (hr : rest ≠ []) {d : String} :
    (skip none blank pos cs).2 = some d ↔ ∃ c, d = String.ofList c ∧ LastDoc cs c rest := by
  constructor
  · intro hd
    rcases plain_or_passesLast h hr with hp | ⟨c, hl⟩
    · cases (hp.doc_skip hu none pos).symm.trans hd
    · refine ⟨c, ?_, (passesLast_iff hu hr).mp hl⟩
      exact Option.some.inj (hd.symm.trans (hl.doc_skip hu none pos))
  · rintro ⟨c, rfl, hl⟩
    exact ((passesLast_iff hu hr).mpr hl).doc_skip hu none pos

theorem LastDoc.hasDoc (h : LastDoc cs c rest) : HasDoc cs rest :=
  let ⟨behind, hg, hd, hb, _⟩ := h
  ⟨c, behind, hg, hd, hb⟩

/-- No comment is in no text. -/
theorem not_hasDoc_self (cs : List Char) : ¬HasDoc cs cs := by
  rintro ⟨c, behind, hg, hd, hb⟩
  have hle := hg.suffix.length_le
  have hle' := hb.suffix.length_le
  have hpos := List.length_pos_iff.mpr hd.ne_nil
  rw [List.length_append] at hle
  omega

end Trivia

/-! ## Comments of tokens -/

namespace Token

variable {source : List Char} {k : Nat} {d : String}

/-- The source from the end of the token before the `k`-th one on. -/
def gapText (source : List Char) (k : Nat) : List Char :=
  textFrom (stateAfter source k).2.pos source

/-- The source from the `k`-th token on. -/
def textAt (source : List Char) (k : Nat) : List Char := textFrom (nth source k).start source

theorem gapText_eq (source : List Char) (k : Nat) :
    gapText source k = (stateAfter source k).2.rest :=
  (in_stateAfter source k).textFrom

theorem in_textAt (source : List Char) (k : Nat) :
    Cursor.In source ⟨(nth source k).start, textAt source k⟩ := by
  obtain ⟨start, hs, hp, -, -⟩ := leads_next (stateAfter source k).1 (stateAfter source k).2
  have hs : (nth source k).start = start.pos := hs
  have hin := hp.in (in_stateAfter source k)
  rw [textAt, hs, hin.textFrom]
  exact hin

/-- In front of a token there is nothing, or trivia whose last documentation comment it keeps. -/
theorem nth_trivia (hk : (nth source k).kind ≠ .endOfFile) :
    ((nth source k).doc = none ∧ textAt source k = gapText source k) ∨
      (∃ pos, (nth source k).doc = (Trivia.skip none .blank pos (gapText source k)).2) ∧
      Trivia.Gaps (gapText source k) (textAt source k) ∧ Trivia.Unskipped (textAt source k) ∧
      textAt source k ≠ [] := by
  rw [gapText_eq]
  have hin := in_stateAfter source k
  rw [nth] at hk
  cases hi : (stateAfter source k).1 with
  | false =>
    have hs : (nth source k).start = (stateAfter source k).2.pos := by rw [nth, hi]; rfl
    refine .inl ⟨by rw [nth, hi]; rfl, ?_⟩
    rw [textAt, hs, hin.textFrom]
  | true =>
    rw [hi] at hk
    generalize hp : (stateAfter source k).2 = place at hin hk ⊢
    have hs : (nth source k).start = (Trivia.skip none .blank place.pos place.rest).1.pos := by
      rw [nth, hi, hp]
      rfl
    have hat : textAt source k = (Trivia.skip none .blank place.pos place.rest).1.rest := by
      rw [textAt, hs]
      exact ((Trivia.leads_skip none .blank place.pos place.rest).in hin).textFrom
    rw [hat]
    refine .inr ⟨⟨place.pos, by rw [nth, hi, hp]; rfl⟩, Trivia.passes_skip none .blank _ _,
      Trivia.unskipped_skip none .blank _ _, fun hr => hk ?_⟩
    simp only [next, if_true, Lexeme.inTags, hr]

theorem doc_nth_iff (hk : (nth source k).kind ≠ .endOfFile) : (nth source k).doc = some d ↔
    ∃ c, d = String.ofList c ∧ Trivia.LastDoc (gapText source k) c (textAt source k) := by
  rcases nth_trivia hk with ⟨hn, ht⟩ | ⟨⟨pos, hd⟩, hg, hu, hr⟩
  · rw [hn, ht]
    refine ⟨nofun, ?_⟩
    rintro ⟨c, -, hl⟩
    exact absurd hl.hasDoc (Trivia.not_hasDoc_self _)
  · rw [hd]
    exact Trivia.doc_skip_iff hg hu hr

theorem exists_doc_nth (hk : (nth source k).kind ≠ .endOfFile)
    (h : Trivia.HasDoc (gapText source k) (textAt source k)) :
    ∃ c, Trivia.LastDoc (gapText source k) c (textAt source k) ∧
      (nth source k).doc = some (String.ofList c) := by
  have hlast : ∃ c, Trivia.LastDoc (gapText source k) c (textAt source k) := by
    rcases nth_trivia hk with ⟨-, ht⟩ | ⟨-, -, hu, hr⟩
    · exact absurd (ht ▸ h) (Trivia.not_hasDoc_self _)
    · exact h.lastDoc hu hr
  obtain ⟨c, hl⟩ := hlast
  exact ⟨c, hl, (doc_nth_iff hk).mpr ⟨c, rfl, hl⟩⟩

/-- The comment that a token keeps stands in the source between the token before and this one. -/
theorem doc_nth_place (hk : (nth source k).kind ≠ .endOfFile) (hd : (nth source k).doc = some d) :
    ∃ before behind, source = before ++ d.toList ++ behind ∧ Trivia.DocComment d.toList behind ∧
      (stateAfter source k).2.pos ≤ utf8Len before ∧
      utf8Len (before ++ d.toList) ≤ (nth source k).start := by
  obtain ⟨c, rfl, behind, hg, hc, hb, -⟩ := (doc_nth_iff hk).mp hd
  rw [String.toList_ofList]
  obtain ⟨x, hx⟩ := hg.suffix
  obtain ⟨z, hz⟩ := hb.suffix
  rw [gapText_eq] at hx
  rcases in_stateAfter source k with ⟨before, hs, hp⟩ | ⟨hnil, -⟩
  · rw [← hx] at hs
    refine ⟨before ++ x, behind, by simpa using hs, hc, ?_, ?_⟩
    · rw [String.utf8Len_append, hp]
      exact Nat.le_add_right _ _
    · have hlen := congrArg utf8Len hs
      rw [← hz] at hlen
      simp only [String.utf8Len_append] at hlen ⊢
      rcases in_textAt source k with ⟨front, hs', hp'⟩ | ⟨-, hlt⟩
      · have hlen' := congrArg utf8Len hs'
        simp only [String.utf8Len_append] at hlen' hp'
        omega
      · simp only at hlt
        omega
  · rw [hnil] at hx
    have hcb := (List.append_eq_nil_iff.mp hx).2
    exact absurd (List.append_eq_nil_iff.mp hcb).1 hc.ne_nil

end Token

end PhpAtlas
