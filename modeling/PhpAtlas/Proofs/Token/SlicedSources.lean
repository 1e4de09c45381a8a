import PhpAtlas.Proofs.Token.SlicedTokens

/-! # Tokens of sliced sources

The text of a source from a keyword to the end of a closing brace has the tokens
between them, in any other source that it ends.
-/

namespace PhpAtlas

open String (utf8Len)

/-! ## The last brace -/

theorem Lexeme.inTags_closeBrace {start : Cursor} (h : (inTags start).kind = .closeBrace) :
    ∃ cs, start.rest = '\x7d' :: cs := by
  have hspelled : ∀ s ∈ spellings, s.2 = .closeBrace → s.1 = ['\x7d'] := by decide +kernel
  have hr : start.rest ≠ [] := by
    intro hr
    rw [inTags, hr] at h
    cases h
  rcases inTags_cases hr with hk | ⟨he, -⟩ | he
  · rw [h] at hk
    cases hk
  · rw [he] at h
    rcases kind_name start with hk | ⟨w, hk⟩
    · cases h.symm.trans hk
    · exact absurd (hk.symm.trans h) (nameKind_ne rfl)
  · rw [he] at h
    rcases kind_punctuation start with hk | ⟨s, hs, hk, ds, hds⟩
    · cases h.symm.trans hk
    · rw [hspelled s hs (hk.symm.trans h)] at hds
      exact ⟨ds, hds.symm⟩

namespace Slice

open Token (Scans next)

variable {K : Slice} {c c' : Cursor} {inTags : Bool} {last : Token} {inner rest : List Token}

/-- Before the text ends a closing brace is a token of one character inside of tags. -/
theorem exists_brace_of_next (h : (next inTags c).1.kind = .closeBrace) : inTags = true ∧
    ∃ cs, (Trivia.skip none .blank c.pos c.rest).1.rest = '\x7d' :: cs := by
  cases inTags with
  | true => exact ⟨rfl, Lexeme.inTags_closeBrace h⟩
  | false => exact absurd h (Lexeme.outsideTags_ne rfl c)

theorem inTags_brace (pos : Nat) (cs : List Char) :
    Lexeme.inTags ⟨pos, '\x7d' :: cs⟩ = ⟨.closeBrace, [], ⟨pos + 1, cs⟩⟩ := by
  rfl

theorem textTo_brace (pos : Nat) (cs : List Char) :
    Cursor.textTo ⟨pos, '\x7d' :: cs⟩ (pos + 1) = ['\x7d'] :=
  Cursor.textTo_append pos ['\x7d'] cs

theorem next_brace {pos : Nat} {cs : List Char} {doc : Option String}
    (h : Trivia.skip none .blank c.pos c.rest = (⟨pos, '\x7d' :: cs⟩, doc)) :
    next true c = (⟨.closeBrace, pos, pos + 1, "\x7d", "", doc⟩, ⟨pos + 1, cs⟩, true) := by
  rw [next_inTags, h]
  simp only [inTags_brace, cut, textTo_brace]

/-- A closing brace at the end of a slice is the last token of the slice. -/
theorem exists_scans_brace {pos : Nat} {cs : List Char} {doc : Option String}
    (h : Trivia.skip none .blank c.pos c.rest = (⟨pos, '\x7d' :: cs⟩, doc)) (hK : K.after = cs)
    (hb : K.Beside c c') : ∃ e, e.kind = .endOfFile ∧
      Scans true c' [K.token ⟨.closeBrace, pos, pos + 1, "\x7d", "", doc⟩, e] := by
  have hholds : K.Holds (Trivia.skip none .blank c.pos c.rest).1.rest := by
    rw [h, Holds, hK]
    exact Nat.lt_succ_self _
  have hblank : K.Alike c .blank .blank := .same rfl
  obtain ⟨hbrace, hdoc⟩ := beside_skip hb hblank hholds
  obtain ⟨⟨⟨pos', us⟩, doc'⟩, h'⟩ : ∃ found, Trivia.skip none .blank c'.pos c'.rest = found :=
    ⟨_, rfl⟩
  rw [h, h'] at hbrace hdoc
  obtain rfl : doc' = doc := hdoc
  obtain ⟨us, rfl, -, -⟩ := hbrace.uncons
  obtain rfl : us = [] := hbrace.tail_eq_nil (by rw [Holds, hK]; exact lt_irrefl _)
  obtain ⟨e, he, hk⟩ := Token.scans_nil (pos' + 1)
  have hpos : pos' = K.place pos := hbrace.pos_eq
  have hstop : pos' + 1 = K.place (pos + 1) := by
    have : pos' + K.origin = pos + K.target := hbrace.pos
    rw [place]
    omega
  have hnext := next_brace h'
  have hkind : (next true c').1.kind = .closeBrace := by rw [hnext]
  have hscans : Scans true c' [(next true c').1, e] :=
    .step (by rw [hkind]; decide) (by rwa [hnext])
  rw [hnext] at hscans
  refine ⟨e, hk, ?_⟩
  rwa [hstop, hpos] at hscans

/-- Where a closing brace is the last token of a slice, the tokens up to it are those of the slice. -/
theorem exists_slice (h : Scans inTags c (inner ++ last :: rest)) (hlast : last.kind = .closeBrace) :
    ∃ cs, c.Leads ⟨last.start, '\x7d' :: cs⟩ ∧ last.stop = last.start + 1 ∧
      ∀ K : Slice, K.after = cs → ∀ c', K.Beside c c' →
        ∃ e, e.kind = .endOfFile ∧
          Scans inTags c' ((inner ++ [last]).map K.token ++ [e]) := by
  induction inner generalizing inTags c with
  | nil =>
    obtain rfl := h.head
    obtain ⟨rfl, cs, hcs⟩ := exists_brace_of_next hlast
    have hleads := Trivia.leads_skip none .blank c.pos c.rest
    obtain ⟨⟨⟨pos, rest⟩, doc⟩, hskip⟩ : ∃ found, Trivia.skip none .blank c.pos c.rest = found :=
      ⟨_, rfl⟩
    rw [hskip] at hcs hleads
    obtain rfl : rest = '\x7d' :: cs := hcs
    rw [next_brace hskip]
    exact ⟨cs, hleads, rfl, fun K hK c' hb => exists_scans_brace hskip hK hb⟩
  | cons t inner ih =>
    obtain rfl := h.head
    obtain ⟨hk, hrest⟩ := h.tail (List.append_ne_nil_of_right_ne_nil _ (List.cons_ne_nil _ _))
    obtain ⟨cs, hleads, hstop, hslice⟩ := ih hrest
    obtain ⟨start, -, hstart, hafter, -⟩ := Token.leads_next inTags c
    refine ⟨cs, (hstart.trans hafter).trans hleads, hstop, fun K hK c' hb => ?_⟩
    have hholds : K.Holds (next inTags c).2.1.rest := by
      rw [Holds, hK]
      exact hleads.length_le
    obtain ⟨ht, hinside, hb'⟩ := beside_next hb hholds
    obtain ⟨e, he, hs⟩ := hslice K hK _ hb'
    rw [← hinside] at hs
    have hk' : (next inTags c').1.kind ≠ .endOfFile := by rwa [ht]
    refine ⟨e, he, ?_⟩
    rw [List.cons_append, List.map_cons, List.cons_append, ← ht]
    exact .step hk' hs

end Slice

/-! ## Slices of sources -/

/-- Behind trivia there is no more of it. -/
theorem Trivia.skip_skip (doc : Option String) (inside : Trivia) (pos : Nat) (cs : List Char) :
    skip none .blank (skip doc inside pos cs).1.pos (skip doc inside pos cs).1.rest =
      ((skip doc inside pos cs).1, none) := by
  fun_induction skip doc inside pos cs with
  | case6 _ _ c cs _ hh hs hs' hc =>
    rw [skip_blank_cons hh fun h => ⟨Slice.head_ne (hs · h), Slice.head_ne (hs' · h)⟩, if_neg hc]
  | case7 => rfl
  | _ => first | assumption | rfl

namespace Span

/-- The text of a span from a place of a source on. -/
theorem text_of_in {source w rest : List Char} {c : Cursor} (h : c.In source)
    (hc : c.rest = w ++ rest) (hne : c.rest ≠ []) :
    text ⟨c.pos, c.pos + utf8Len w⟩ source = w := by
  obtain ⟨before, rfl, hp⟩ := h.resolve_right fun h => hne h.1
  rw [text, if_pos (Nat.le_add_right _ _), length, Nat.add_sub_cancel_left, ← hp,
    dropBytes?_append, hc, Option.bind_some, takeBytes?, takeBytesOnto_append]
  rfl

end Span

namespace Token

variable {inTags : Bool} {c : Cursor} {t first last : Token} {ts us inner rest : List Token}
variable {source : List Char} {k : Keyword}

/-- Scanning comes to each of its tokens. -/
theorem Scans.suffix (h : Scans inTags c (us ++ ts)) (hne : ts ≠ []) :
    ∃ inside d, c.Leads d ∧ Scans inside d ts := by
  induction us generalizing inTags c with
  | nil => exact ⟨inTags, c, .refl c, h⟩
  | cons u us ih =>
    obtain ⟨-, hrest⟩ := h.tail (List.append_ne_nil_of_right_ne_nil _ hne)
    obtain ⟨inside, d, hd, hs⟩ := ih hrest
    obtain ⟨start, -, hstart, hafter, -⟩ := leads_next inTags c
    exact ⟨inside, d, (hstart.trans hafter).trans hd, hs⟩

/-- A token inside of tags is the same from where it starts on, but for the comment before it. -/
theorem next_of_start (c : Cursor) : next true (Trivia.skip none .blank c.pos c.rest).1 =
    ({ (next true c).1 with doc := none }, (next true c).2) := by
  simp only [next, if_true, Trivia.skip_skip]

theorem Scans.from_start (h : Scans true c (t :: ts)) (hne : ts ≠ []) :
    ∃ start : Cursor, c.Leads start ∧ start.pos = t.start ∧
      Scans true start ({ t with doc := none } :: ts) := by
  obtain rfl := h.head
  obtain ⟨hk, hrest⟩ := h.tail hne
  refine ⟨_, Trivia.leads_skip none .blank c.pos c.rest, rfl, ?_⟩
  have hstart := next_of_start c
  generalize (Trivia.skip none .blank c.pos c.rest).1 = start at hstart
  have hscans : Scans true start ((next true start).1 :: ts) := by
    refine .step ?_ ?_
    · rwa [hstart]
    · rwa [hstart]
  rwa [hstart] at hscans

/-- The text from a keyword to the end of a closing brace has the tokens that are between them, and no
others. -/
theorem exists_scans_slice (h : ofSource source = us ++ first :: (inner ++ last :: rest))
    (hfirst : first.kind = .keyword k) (hlast : last.kind = .closeBrace) (target : Nat) :
    ∃ e, e.kind = .endOfFile ∧
      Scans true ⟨target, Span.text ⟨first.start, last.stop⟩ source⟩
        (({ first with doc := none } :: inner ++ [last]).map
          (Slice.token ⟨first.start, target, []⟩) ++ [e]) := by
  have hsource := h ▸ scans_ofSource source
  obtain ⟨inside, c, hc, hscans⟩ := hsource.suffix (List.cons_ne_nil _ _)
  have hinside : inside = true := by
    cases inside with
    | true => rfl
    | false =>
      rw [hscans.head] at hfirst
      exact absurd hfirst (Lexeme.outsideTags_ne rfl c)
  subst hinside
  obtain ⟨start, hstart, hpos, hscans⟩ :=
    hscans.from_start (List.append_ne_nil_of_right_ne_nil _ (List.cons_ne_nil _ _))
  rw [← List.cons_append] at hscans
  obtain ⟨cs, hleads, hstop, hslice⟩ := Slice.exists_slice hscans hlast
  obtain ⟨w, hw, hlen⟩ := (hleads.runs (List.cons_ne_nil _ _)).exists_append
  have hin : start.In source := hstart.in (hc.in (.inl ⟨[], rfl, rfl⟩))
  have hrest : start.rest = (w ++ ['\x7d']) ++ cs := by rw [hw, List.append_assoc]; rfl
  have hend : last.stop = start.pos + utf8Len (w ++ ['\x7d']) := by
    rw [String.utf8Len_append, ← Nat.add_assoc, ← hlen, hstop]
    rfl
  have htext : Span.text ⟨first.start, last.stop⟩ source = w ++ ['\x7d'] := by
    rw [hend, ← hpos]
    exact Span.text_of_in hin hrest (hw ▸ List.append_ne_nil_of_right_ne_nil _ nofun)
  rw [htext]
  exact hslice ⟨first.start, target, cs⟩ rfl ⟨target, w ++ ['\x7d']⟩
    ⟨⟨w, hw, rfl⟩, by rw [hpos]; exact Nat.add_comm _ _⟩

end Token

end PhpAtlas
