import Mathlib.Data.Nat.Find
import Mathlib.Data.String.Basic
import PhpAtlas.Proofs.Token.Places
import PhpAtlas.Proofs.Token.Words

/-! # Tokens and the text between them

The scanner moves over whole characters. So tokens and the trivia between them
cover the source without overlaps, and their ends never cut a character.
-/

namespace PhpAtlas

open String (utf8Len)

variable {c : Char} {cs rest : List Char} {pos : Nat}

/-- A character that is read by itself and not as the first of an escape. -/
theorem ne_backslash (h : ∀ d ds, c = '\\' → cs = d :: ds → False)
    (h' : c = '\\' → cs = [] → False) : c ≠ '\\' := by
  rintro rfl
  cases cs with
  | nil => exact h' rfl rfl
  | cons d ds => exact h d ds rfl rfl

/-! ## Places in one text -/

namespace Cursor

/-- The text from the place on stands in the source at the offset of the place, or the place is past
the end of the source. -/
def In (source : List Char) (c : Cursor) : Prop :=
  (∃ before, source = before ++ c.rest ∧ utf8Len before = c.pos) ∨
    c.rest = [] ∧ utf8Len source < c.pos

variable {a b d : Cursor} {source : List Char}

theorem Leads.in (h : Leads a b) (ha : a.In source) : b.In source := by
  induction h with
  | refl => exact ha
  | @step pos c cs _ _ ih =>
    apply ih
    rcases ha with ⟨before, rfl, hp⟩ | ⟨hn, -⟩
    · refine .inl ⟨before ++ [c], by simp, ?_⟩
      simp only at hp
      simp [hp]
    · cases hn
  | @past pos _ _ ih =>
    apply ih
    rcases ha with ⟨before, rfl, hp⟩ | ⟨-, hlt⟩
    · exact .inr ⟨rfl, by simp only at hp; simp [hp]⟩
    · exact .inr ⟨rfl, hlt.trans (Nat.lt_succ_self _)⟩

end Cursor

/-! ## Trivia -/

namespace Trivia

/-- A line comment ends before a newline, before a closing tag or with the text. The first text is
what is left after its opening, the second what follows the comment; likewise below. -/
inductive LineRest : List Char → List Char → Prop
  | newline {cs : List Char} : LineRest ('\n' :: cs) ('\n' :: cs)
  | closeTag {cs : List Char} : LineRest ('?' :: '>' :: cs) ('?' :: '>' :: cs)
  | cut : LineRest [] []
  | step {c : Char} {cs rest : List Char} (hn : c ≠ '\n') (ht : ∀ ds, c :: cs ≠ '?' :: '>' :: ds)
      (h : LineRest cs rest) : LineRest (c :: cs) rest

/-- A block comment ends after the first `*/`, or with the text. -/
inductive BlockRest : List Char → List Char → Prop
  | close {cs : List Char} : BlockRest ('*' :: '/' :: cs) cs
  | cut : BlockRest [] []
  | step {c : Char} {cs rest : List Char} (hc : ∀ ds, c :: cs ≠ '*' :: '/' :: ds)
      (h : BlockRest cs rest) : BlockRest (c :: cs) rest

/-- A quoted text ends after the first quote without a backslash before it, or with the text. -/
inductive QuotedRest (quote : Char) : List Char → List Char → Prop
  | close {cs : List Char} : QuotedRest quote (quote :: cs) cs
  | escape {c : Char} {cs rest : List Char} (h : QuotedRest quote cs rest) :
      QuotedRest quote ('\\' :: c :: cs) rest
  | cut : QuotedRest quote [] []
  | cutEscape : QuotedRest quote ['\\'] []
  | step {c : Char} {cs rest : List Char} (hq : c ≠ quote) (hb : c ≠ '\\')
      (h : QuotedRest quote cs rest) : QuotedRest quote (c :: cs) rest

/-- An attribute group with some brackets open ends after the bracket that closes the first of them,
or with the text. Brackets in quoted texts do not count. -/
inductive GroupRest : Nat → List Char → List Char → Prop
  | close {cs : List Char} : GroupRest 1 (']' :: cs) cs
  | inner {depth : Nat} {cs rest : List Char} (h : GroupRest depth cs rest) (hd : 0 < depth) :
      GroupRest (depth + 1) (']' :: cs) rest
  | nested {depth : Nat} {cs rest : List Char} (h : GroupRest (depth + 1) cs rest) :
      GroupRest depth ('[' :: cs) rest
  | quoted {depth : Nat} {q : Char} {cs mid rest : List Char} (hq : q = '\'' ∨ q = '"')
      (h : QuotedRest q cs mid) (h' : GroupRest depth mid rest) : GroupRest depth (q :: cs) rest
  | cut {depth : Nat} : GroupRest depth [] []
  | step {depth : Nat} {c : Char} {cs rest : List Char} (hc : c ≠ '[' ∧ c ≠ ']')
      (hq : c ≠ '\'' ∧ c ≠ '"') (h : GroupRest depth cs rest) : GroupRest depth (c :: cs) rest

/-- The first text is blanks, line comments, block comments and attribute groups, one after another,
and then the second. -/
inductive Gaps : List Char → List Char → Prop
  | none {cs : List Char} : Gaps cs cs
  | blank {c : Char} {cs rest : List Char} (hc : isGap c = true) (h : Gaps cs rest) :
      Gaps (c :: cs) rest
  | hash {cs mid rest : List Char} (hg : ∀ ds, cs ≠ '[' :: ds) (h : LineRest cs mid)
      (h' : Gaps mid rest) : Gaps ('#' :: cs) rest
  | slashes {cs mid rest : List Char} (h : LineRest cs mid) (h' : Gaps mid rest) :
      Gaps ('/' :: '/' :: cs) rest
  | block {cs mid rest : List Char} (h : BlockRest cs mid) (h' : Gaps mid rest) :
      Gaps ('/' :: '*' :: cs) rest
  | group {cs mid rest : List Char} (h : GroupRest 1 cs mid) (h' : Gaps mid rest) :
      Gaps ('#' :: '[' :: cs) rest

/-- What is still passed over in a state, and what stands behind it. -/
def Passes : Trivia → List Char → List Char → Prop
  | blank, cs, rest => Gaps cs rest
  | line, cs, rest => ∃ mid, LineRest cs mid ∧ Gaps mid rest
  | block _, cs, rest => ∃ mid, BlockRest cs mid ∧ Gaps mid rest
  | group depth, cs, rest => 0 < depth → ∃ mid, GroupRest depth cs mid ∧ Gaps mid rest
  | quoted depth q, cs, rest => 0 < depth → ∃ mid mid', QuotedRest q cs mid ∧
      GroupRest depth mid mid' ∧ Gaps mid' rest

theorem passes_inGroup {depth : Nat} {c : Char} (h : Passes (inGroup depth c) cs rest) :
    Passes (group depth) (c :: cs) rest := by
  intro hd
  unfold inGroup at h
  split at h
  · next hc =>
    obtain rfl := eq_of_beq hc
    obtain ⟨mid, hg, hr⟩ := h (Nat.succ_pos _)
    exact ⟨mid, .nested hg, hr⟩
  · next ho =>
    split at h
    · next hc =>
      obtain rfl := eq_of_beq hc
      split at h
      · obtain rfl : depth = 1 := by omega
        exact ⟨cs, .close, h⟩
      · obtain ⟨depth, rfl⟩ := Nat.exists_eq_add_one.mpr hd
        obtain ⟨mid, hg, hr⟩ := h (by omega)
        exact ⟨mid, .inner hg (by omega), hr⟩
    · next hc =>
      split at h
      · next hq =>
        obtain ⟨mid, mid', hqr, hg, hr⟩ := h hd
        exact ⟨mid', .quoted (by simpa using hq) hqr hg, hr⟩
      · next hq =>
        obtain ⟨mid, hg, hr⟩ := h hd
        exact ⟨mid, .step ⟨by simpa using ho, by simpa using hc⟩ (by simpa using hq) hg, hr⟩

/-- Skipping passes over trivia and nothing else. -/
theorem passes_skip (doc : Option String) (state : Trivia) (pos : Nat) (cs : List Char) :
    Passes state cs (skip doc state pos cs).1.rest := by
  fun_induction skip doc state pos cs with
  | case1 _ _ _ ih =>
    obtain ⟨mid, hg, hr⟩ := ih Nat.one_pos
    exact .group hg hr
  | case2 _ _ _ hc ih =>
    obtain ⟨mid, hl, hr⟩ := ih
    exact .hash hc hl hr
  | case3 _ _ _ ih =>
    obtain ⟨mid, hl, hr⟩ := ih
    exact .slashes hl hr
  | case4 _ _ _ ih =>
    obtain ⟨mid, hb, hr⟩ := ih
    exact .block hb hr
  | case5 _ _ _ _ _ _ _ _ hc ih => exact .blank hc ih
  | case6 => exact .none
  | case7 => exact ⟨_, .closeTag, .none⟩
  | case8 _ _ c cs ht ih =>
    by_cases hc : c = '\n'
    · subst hc
      exact ⟨_, .newline, .blank (by decide) ih⟩
    · rw [if_neg (by simpa using hc)] at ih ⊢
      obtain ⟨mid, hl, hr⟩ := ih
      have hs : ∀ ds, c :: cs ≠ '?' :: '>' :: ds := by
        rintro ds ⟨⟩
        exact ht ds rfl rfl
      exact ⟨mid, .step hc hs hl, hr⟩
  | case9 _ _ _ _ ih => exact ⟨_, .close, ih⟩
  | case10 _ _ _ c cs hc ih =>
    obtain ⟨mid, hb, hr⟩ := ih
    refine ⟨mid, .step ?_ hb, hr⟩
    rintro ds ⟨⟩
    exact hc ds rfl rfl
  | case11 => exact ⟨_, .cut, .none⟩
  | case12 _ _ _ _ _ ih => exact passes_inGroup ih
  | case13 _ _ _ _ _ _ ih =>
    intro hd
    obtain ⟨mid, mid', hq, hg, hr⟩ := ih hd
    exact ⟨mid, mid', .escape hq, hg, hr⟩
  | case14 => exact fun _ => ⟨_, _, .cutEscape, .cut, .none⟩
  | case15 _ depth q _ c cs hb hb' ih =>
    intro hd
    have hc := ne_backslash hb hb'
    by_cases hq : c = q
    · subst hq
      rw [if_pos (beq_self_eq_true c)] at ih ⊢
      obtain ⟨mid, hg, hr⟩ := ih hd
      exact ⟨_, mid, .close, hg, hr⟩
    · rw [if_neg (by simpa using hq)] at ih ⊢
      obtain ⟨mid, mid', hqr, hg, hr⟩ := ih hd
      exact ⟨mid, mid', .step hq hc hqr, hg, hr⟩
  | case16 _ state =>
    cases state with
    | blank => exact .none
    | line => exact ⟨_, .cut, .none⟩
    | block => exact ⟨_, .cut, .none⟩
    | group => exact fun _ => ⟨_, .cut, .none⟩
    | quoted => exact fun _ => ⟨_, _, .cut, .cut, .none⟩

end Trivia

/-! ## Scanning step by step -/

/-- The text from a byte offset on; past the end there is none. -/
def textFrom (pos : Nat) (source : List Char) : List Char := (dropBytes? pos source).getD []

/-- The offset is between two characters of the text, at its ends or past the end. -/
def Unbroken (source : List Char) (pos : Nat) : Prop :=
  (∃ before rest, source = before ++ rest ∧ utf8Len before = pos) ∨ utf8Len source < pos

theorem dropBytes?_append (before rest : List Char) :
    dropBytes? (utf8Len before) (before ++ rest) = some rest := by
  induction before with
  | nil => cases rest <;> rfl
  | cons c cs ih =>
    have hc := c.utf8Size_pos
    have hlen : utf8Len (c :: cs) = utf8Len cs + c.utf8Size := rfl
    obtain ⟨n, hn⟩ : ∃ n, utf8Len (c :: cs) = n + 1 := Nat.exists_eq_add_one.mpr (by omega)
    have hr : n + 1 - c.utf8Size = utf8Len cs := by omega
    rw [hn, List.cons_append, dropBytes?, if_pos (by omega), hr, ih]

theorem dropBytes?_of_lt {source : List Char} (h : utf8Len source < pos) :
    dropBytes? pos source = none := by
  induction source generalizing pos with
  | nil =>
    obtain ⟨n, rfl⟩ := Nat.exists_eq_add_one.mpr h
    rfl
  | cons c cs ih =>
    have hlen : utf8Len (c :: cs) = utf8Len cs + c.utf8Size := rfl
    obtain ⟨n, rfl⟩ : ∃ n, pos = n + 1 := Nat.exists_eq_add_one.mpr (by omega)
    rw [dropBytes?]
    split
    · exact ih (by omega)
    · rfl

theorem length_le_utf8Len (cs : List Char) : cs.length ≤ utf8Len cs := by
  induction cs with
  | nil => exact le_rfl
  | cons c cs ih =>
    have hc := c.utf8Size_pos
    have hlen : utf8Len (c :: cs) = utf8Len cs + c.utf8Size := rfl
    rw [hlen, List.length_cons]
    omega

namespace Cursor

variable {a : Cursor} {source : List Char}

theorem In.unbroken (h : a.In source) : Unbroken source a.pos := by
  rcases h with ⟨before, hs, hp⟩ | ⟨-, hp⟩
  · exact .inl ⟨before, a.rest, hs, hp⟩
  · exact .inr hp

theorem In.textFrom (h : a.In source) : textFrom a.pos source = a.rest := by
  unfold PhpAtlas.textFrom
  rcases h with ⟨before, hs, hp⟩ | ⟨hr, hp⟩
  · rw [hs, ← hp, dropBytes?_append]
    rfl
  · rw [dropBytes?_of_lt hp, hr]
    rfl

end Cursor

namespace Token

/-- A token starts further on in the text, behind trivia inside of tags and at once outside of them,
and the place after it is again further on. -/
theorem leads_next (inTags : Bool) (place : Cursor) : ∃ start : Cursor,
    (next inTags place).1.start = start.pos ∧ place.Leads start ∧
    start.Leads (next inTags place).2.1 ∧
    if inTags then Trivia.Gaps place.rest start.rest else start = place := by
  cases inTags with
  | true =>
    exact ⟨_, rfl, Trivia.leads_skip .., Lexeme.leads_inTags _, Trivia.passes_skip none .blank _ _⟩
  | false => exact ⟨_, rfl, .refl _, (Lexeme.runs_outsideTags _).leads, rfl⟩

/-- No text is left at the end of the file. -/
theorem rest_of_endOfFile {inTags : Bool} {place : Cursor}
    (h : (next inTags place).1.kind = .endOfFile) : (next inTags place).2.1.rest = [] := by
  cases inTags with
  | true =>
    have hr : (Trivia.skip none .blank place.pos place.rest).1.rest = [] :=
      by_contra fun hr => Lexeme.inTags_ne_endOfFile hr h
    simp only [next, if_true, Lexeme.inTags, hr]
  | false =>
    have hr : place.rest = [] := by_contra fun hr => Lexeme.outsideTags_ne_endOfFile hr h
    simp only [next, Bool.false_eq_true, if_false, Lexeme.outsideTags, hr]

/-- Where no text is left the next token is the end of the file, and the place and the mode stay. -/
theorem next_nil (inTags : Bool) (pos : Nat) :
    next inTags ⟨pos, []⟩ = (endAt pos, ⟨pos, []⟩, inTags) := by
  cases inTags with
  | true => simp [next, Trivia.skip, Lexeme.inTags, endAt, Cursor.textTo, takeBytes, takeBytes?,
      takeBytesOnto]
  | false => simp [next, Lexeme.outsideTags, endAt, Cursor.textTo, takeBytes, takeBytes?,
      takeBytesOnto]

/-- Whether the scanner is inside of tags after some tokens, and its place. -/
def stateAfter (source : List Char) : Nat → Bool × Cursor
  | 0 => (false, ⟨0, source⟩)
  | n + 1 =>
      let (inTags, place) := stateAfter source n
      let (_, after, inside) := next inTags place
      (inside, after)

/-- What scanning gives after some other tokens. -/
def nth (source : List Char) (n : Nat) : Token :=
  (next (stateAfter source n).1 (stateAfter source n).2).1

/-- Scanning gives `n` tokens and then the end of the file, time after time. The scanner is where the
previous token ended. -/
structure Tiles (source : List Char) (n : Nat) : Prop where
  endOfFile : ∀ k, (nth source k).kind = .endOfFile ↔ n ≤ k
  stays : ∀ k, n ≤ k → (nth source k).start = (nth source n).start ∧
    (nth source k).stop = (nth source n).start
  filled : ∀ k, k < n → (nth source k).start < (nth source k).stop
  place : ∀ k, (stateAfter source (k + 1)).2.pos = (nth source k).stop
  ordered : ∀ k, (stateAfter source k).2.pos ≤ (nth source k).start
  unbroken : ∀ k, Unbroken source (nth source k).start ∧ Unbroken source (nth source k).stop
  /-- Inside of tags there is trivia before a token, outside of them there is nothing. -/
  gaps : ∀ k, if (stateAfter source k).1
    then Trivia.Gaps (textFrom (stateAfter source k).2.pos source)
      (textFrom (nth source k).start source)
    else (nth source k).start = (stateAfter source k).2.pos

theorem in_stateAfter (source : List Char) (n : Nat) : (stateAfter source n).2.In source := by
  induction n with
  | zero => exact .inl ⟨[], rfl, rfl⟩
  | succ n ih =>
    obtain ⟨start, -, hp, hs, -⟩ := leads_next (stateAfter source n).1 (stateAfter source n).2
    exact hs.in (hp.in ih)

/-- As many characters as tokens are taken at least, up to the end of the file. -/
theorem length_stateAfter {source : List Char} {n : Nat}
    (h : ∀ k < n, (nth source k).kind ≠ .endOfFile) :
    (stateAfter source n).2.rest.length + n ≤ source.length := by
  induction n with
  | zero => exact le_rfl
  | succ n ih =>
    have hn := ih fun k hk => h k (Nat.lt_succ_of_lt hk)
    have hp : (stateAfter source (n + 1)).2.rest.length < (stateAfter source n).2.rest.length :=
      next_progress (h n (Nat.lt_succ_self n))
    omega

/-- After the end of the file there is no other token, and the place does not change. -/
theorem stateAfter_endOfFile {source : List Char} {n k : Nat}
    (h : (nth source n).kind = .endOfFile) (hk : n < k) :
    stateAfter source k = ((stateAfter source (n + 1)).1, ⟨(nth source n).stop, []⟩) := by
  induction k, hk using Nat.le_induction with
  | base =>
    have hr : (stateAfter source (n + 1)).2.rest = [] := rest_of_endOfFile h
    have hp : (stateAfter source (n + 1)).2.pos = (nth source n).stop := pos_after_next _ _
    rw [← hp, ← hr]
  | succ k _ ih =>
    have hs : stateAfter source (k + 1) = ((next (stateAfter source k).1 (stateAfter source k).2).2.2,
      (next (stateAfter source k).1 (stateAfter source k).2).2.1) := rfl
    rw [hs, ih, next_nil]

theorem nth_of_endOfFile {source : List Char} {n k : Nat}
    (h : (nth source n).kind = .endOfFile) (hk : n < k) :
    nth source k = endAt (nth source n).stop := by
  rw [nth, stateAfter_endOfFile h hk, next_nil]

/-- The tokens from some token on are those of the scans from there. -/
theorem scans_stateAfter {source : List Char} {n : Nat} (hn : (nth source n).kind = .endOfFile)
    (hk : ∀ k < n, (nth source k).kind ≠ .endOfFile) (m k : Nat) (hm : k + m = n) :
    Scans (stateAfter source k).1 (stateAfter source k).2
      ((List.range' k (m + 1)).map (nth source)) := by
  induction m generalizing k with
  | zero =>
    obtain rfl : k = n := hm
    exact .last hn
  | succ m ih => exact .step (hk k (by omega)) (ih (k + 1) (by omega))

theorem tiles_of_endOfFile {source : List Char} {n : Nat}
    (hn : (nth source n).kind = .endOfFile) (hk : ∀ k < n, (nth source k).kind ≠ .endOfFile) :
    Tiles source n := by
  have hstop : (nth source n).stop = (nth source n).start := by
    have hf : (nth source n).Filled := filled_next _ _
    rwa [Filled, if_pos hn] at hf
  constructor
  case endOfFile =>
    intro k
    constructor
    · intro h
      exact Nat.not_lt.mp fun hlt => hk k hlt h
    · intro h
      rcases h.eq_or_lt with rfl | h
      · exact hn
      · rw [nth_of_endOfFile hn h]
        rfl
  case stays =>
    intro k h
    rcases h.eq_or_lt with rfl | h
    · exact ⟨rfl, hstop⟩
    · rw [nth_of_endOfFile hn h]
      exact ⟨hstop, hstop⟩
  case filled =>
    intro k h
    have hf : (nth source k).Filled := filled_next _ _
    rwa [Filled, if_neg (hk k h)] at hf
  case place => exact fun _ => pos_after_next _ _
  case ordered => exact fun _ => pos_le_start_next _ _
  case unbroken =>
    intro k
    have hin := in_stateAfter source k
    obtain ⟨start, hs, hp, hl, -⟩ := leads_next (stateAfter source k).1 (stateAfter source k).2
    have hstop := (hl.in (hp.in hin)).unbroken
    rw [pos_after_next] at hstop
    exact ⟨hs ▸ (hp.in hin).unbroken, hstop⟩
  case gaps =>
    intro k
    have hin := in_stateAfter source k
    obtain ⟨start, hs, hp, -, hg⟩ := leads_next (stateAfter source k).1 (stateAfter source k).2
    have hs : (nth source k).start = start.pos := hs
    rw [hs, hin.textFrom, (hp.in hin).textFrom]
    split
    · next hi => rwa [if_pos hi] at hg
    · next hi =>
      rw [if_neg hi] at hg
      rw [hg]

/-- Scanning comes to the end of the file, and before it there are at most as many tokens as the
source has bytes. The tokens cover the source but for the trivia between them. -/
theorem scanning_tiles (source : List Char) : ∃ n ≤ utf8Len source, Tiles source n ∧
    ofSource source = (List.range (n + 1)).map (nth source) := by
  have hex : ∃ n, (nth source n).kind = .endOfFile := by
    by_contra hne
    have := length_stateAfter (n := source.length + 1) fun k _ hk => hne ⟨k, hk⟩
    omega
  have hn := Nat.find_spec hex
  have hk : ∀ k < Nat.find hex, (nth source k).kind ≠ .endOfFile := fun k => Nat.find_min hex
  have hlen := length_stateAfter hk
  have hbytes := length_le_utf8Len source
  refine ⟨Nat.find hex, by omega, tiles_of_endOfFile hn hk, ?_⟩
  rw [List.range_eq_range']
  exact (scans_ofSource source).unique (scans_stateAfter hn hk _ 0 (Nat.zero_add _))

end Token

end PhpAtlas
