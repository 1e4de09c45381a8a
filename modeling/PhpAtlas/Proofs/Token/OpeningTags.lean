import PhpAtlas.Proofs.Token.SlicedSources

/-! # Opening tags

Outside of tags a token is an opening tag or the text before one. The long tag is looked for
first: where one stands further on all before it is one text, short tags and all.
-/

namespace PhpAtlas

open String (utf8Len)

variable {x : Char} {a b w cs html tag rest : List Char} {pos n : Nat}

/-! ## Searching for a tag -/

/-- What begins a tag does not occur further on in it, so occurrences of tags do not overlap. -/
theorem prefix_append_cons_iff (hx : x ∉ w) : w <+: a ++ x :: b ↔ w <+: a := by
  constructor
  · intro h
    induction w generalizing a with
    | nil => exact List.nil_prefix
    | cons y w ih =>
      rw [List.mem_cons, not_or] at hx
      cases a with
      | nil => exact absurd (List.cons_prefix_cons.mp h).1.symm hx.1
      | cons z a =>
        obtain ⟨rfl, hw⟩ := List.cons_prefix_cons.mp h
        exact List.cons_prefix_cons.mpr ⟨rfl, ih hx.2 hw⟩
  · intro h
    exact h.trans (List.prefix_append _ _)

theorem cons_infix_append_cons_iff (hx : x ∉ w) :
    x :: w <:+: a ++ x :: b ↔ x :: w <:+: a ∨ x :: w <:+: x :: b := by
  induction a with
  | nil => simp
  | cons y a ih =>
    have hy : x :: w <:+: y :: a ↔ x :: w <+: y :: a ∨ x :: w <:+: a := List.infix_cons_iff
    rw [List.cons_append, List.infix_cons_iff, ih, ← or_assoc, hy, List.cons_prefix_cons,
      List.cons_prefix_cons, prefix_append_cons_iff hx]

/-- Where one of some texts occurs there is a first occurrence of one. -/
theorem exists_first (ws : List (List Char)) (hws : [] ∉ ws) (h : ∃ w ∈ ws, w <:+: cs) :
    ∃ a, ∃ w ∈ ws, ∃ b, cs = a ++ (w ++ b) ∧ ∀ w ∈ ws, ¬w <:+: a := by
  have hnil : ∀ w ∈ ws, ¬w <:+: [] := by
    rintro w hw hi
    exact hws (List.infix_nil.mp hi ▸ hw)
  induction cs with
  | nil =>
    obtain ⟨w, hw, hi⟩ := h
    exact absurd hi (hnil w hw)
  | cons c cs ih =>
    by_cases hp : ∃ w ∈ ws, w <+: c :: cs
    · obtain ⟨w, hw, b, hb⟩ := hp
      exact ⟨[], w, hw, b, hb.symm, hnil⟩
    · have hcs : ∃ w ∈ ws, w <:+: cs := by
        obtain ⟨w, hw, hi⟩ := h
        rcases List.infix_cons_iff.mp hi with hi | hi
        · exact absurd ⟨w, hw, hi⟩ hp
        · exact ⟨w, hw, hi⟩
      obtain ⟨a, w, hw, b, rfl, ha⟩ := ih hcs
      refine ⟨c :: a, w, hw, b, rfl, ?_⟩
      intro v hv hi
      rcases List.infix_cons_iff.mp hi with hi | hi
      · exact hp ⟨v, hv, hi.trans (List.prefix_append (c :: a) (w ++ b))⟩
      · exact ha v hv hi

namespace Cursor

theorem find?_eq_none_iff (hw : w ≠ []) : find? w pos cs = none ↔ ¬w <:+: cs := by
  induction cs generalizing pos with
  | nil => simpa [find?] using hw
  | cons c cs ih =>
    rw [find?, List.infix_cons_iff, not_or]
    split
    · next h => simp [List.isPrefixOf_iff_prefix.mp h]
    · next h => simp [mt List.isPrefixOf_iff_prefix.mpr h, ih]

/-- The first place where a tag stands. -/
theorem find?_append (hx : x ∉ w) (ha : ¬x :: w <:+: a) :
    find? (x :: w) pos (a ++ (x :: w ++ b)) = some ⟨pos + utf8Len a, x :: w ++ b⟩ := by
  induction a generalizing pos with
  | nil =>
    rw [List.nil_append, List.cons_append, find?, if_pos]
    · rfl
    · simp
  | cons y a ih =>
    rw [List.infix_cons_iff, not_or] at ha
    have hp : ¬x :: w <+: y :: (a ++ (x :: w ++ b)) := by
      rw [List.cons_append, List.cons_prefix_cons, prefix_append_cons_iff hx, ← List.cons_prefix_cons]
      exact ha.1
    have hlen : utf8Len (y :: a) = utf8Len a + y.utf8Size := rfl
    rw [List.cons_append, find?, if_neg (mt List.isPrefixOf_iff_prefix.mp hp), ih ha.2, hlen]
    congr 2
    omega

theorem last_eq (c : Cursor) : c.last = ⟨c.pos + utf8Len c.rest, []⟩ := by
  obtain ⟨pos, cs⟩ := c
  unfold last
  induction cs generalizing pos with
  | nil => rfl
  | cons x cs ih =>
    have hlen : utf8Len (x :: cs) = utf8Len cs + x.utf8Size := rfl
    simp only at ih
    simp only [skipWhile, if_true, ih, hlen]
    congr 1
    omega

end Cursor

/-! ## Tags -/

/-- The tag that opens a program. -/
def longTag : List Char := "<?php".toList

/-- The tag that opens and prints. -/
def shortTag : List Char := "<?=".toList

/-- There is no opening tag in the text. -/
def TagFree (cs : List Char) : Prop := ¬longTag <:+: cs ∧ ¬shortTag <:+: cs

/-- An opening tag and the text before it, in which there is no other one. -/
structure FirstTag (html tag : List Char) : Prop where
  tag : tag = longTag ∨ tag = shortTag
  html : TagFree html

theorem tagFree_nil : TagFree [] := ⟨by decide, by decide⟩

/-- Occurrences of tags do not overlap. -/
theorem longTag_infix_iff : longTag <:+: html ++ (shortTag ++ rest) ↔
    longTag <:+: html ∨ longTag <:+: rest := by
  have hx : '<' ∉ ['?', 'p', 'h', 'p'] := by decide
  have hlong : longTag = '<' :: ['?', 'p', 'h', 'p'] := rfl
  have hshort : shortTag ++ rest = '<' :: '?' :: '=' :: rest := rfl
  rw [hlong, hshort, cons_infix_append_cons_iff hx]
  simp [List.infix_cons_iff]

/-- The first tag of a text. -/
theorem exists_firstTag (h : ¬TagFree cs) : ∃ html tag rest, FirstTag html tag ∧
    cs = html ++ (tag ++ rest) := by
  have hex : ∃ w ∈ [longTag, shortTag], w <:+: cs := by
    rw [TagFree, not_and_or, not_not, not_not] at h
    rcases h with h | h
    · exact ⟨_, List.mem_cons_self, h⟩
    · exact ⟨_, List.mem_cons_of_mem _ List.mem_cons_self, h⟩
  obtain ⟨html, tag, ht, rest, rfl, hh⟩ := exists_first [longTag, shortTag] (by decide) hex
  exact ⟨html, tag, rest, ⟨by simpa using ht, by simpa [TagFree] using hh⟩, rfl⟩

/-- The first long tag of a text. -/
theorem exists_longTag (h : longTag <:+: cs) : ∃ html rest, cs = html ++ (longTag ++ rest) ∧
    ¬longTag <:+: html := by
  obtain ⟨html, tag, ht, rest, rfl, hh⟩ :=
    exists_first [longTag] (by decide) ⟨_, List.mem_singleton_self _, h⟩
  obtain rfl := List.mem_singleton.mp ht
  exact ⟨html, rest, rfl, by simpa using hh⟩

theorem find?_longTag (h : ¬longTag <:+: html) :
    Cursor.find? longTag pos (html ++ (longTag ++ rest)) = some ⟨pos + utf8Len html, longTag ++ rest⟩ :=
  Cursor.find?_append (w := "?php".toList) (by decide) h

theorem find?_shortTag (h : ¬shortTag <:+: html) :
    Cursor.find? shortTag pos (html ++ (shortTag ++ rest)) =
      some ⟨pos + utf8Len html, shortTag ++ rest⟩ :=
  Cursor.find?_append (w := "?=".toList) (by decide) h

/-! ## Tokens outside of tags -/

namespace Lexeme

/-- The token at a place before a tag: the text up to the tag, or the tag. -/
def beforeTag (pos : Nat) (html tag rest : List Char) : Lexeme :=
  if html = [] then ⟨.openTag, [], ⟨pos + utf8Len tag, rest⟩⟩
  else ⟨.inlineHtml, [], ⟨pos + utf8Len html, tag ++ rest⟩⟩

theorem outsideTags_of_find? (ht : tag = longTag ∨ tag = shortTag)
    (h : (Cursor.find? longTag pos (html ++ (tag ++ rest))).or
      (Cursor.find? shortTag pos (html ++ (tag ++ rest))) = some ⟨pos + utf8Len html, tag ++ rest⟩) :
    outsideTags ⟨pos, html ++ (tag ++ rest)⟩ = beforeTag pos html tag rest := by
  unfold outsideTags
  extract_lets long short
  have hfind : (Cursor.find? long pos (html ++ (tag ++ rest))).or
      (Cursor.find? short pos (html ++ (tag ++ rest))) = some ⟨pos + utf8Len html, tag ++ rest⟩ := h
  split
  · next hnil =>
    rcases ht with rfl | rfl <;> simp [longTag, shortTag] at hnil
  · simp only [Option.orElse_eq_orElse, Option.orElse_eq_or, hfind]
    cases html with
    | nil =>
      have hlen : (if long <+: tag ++ rest then long.length else short.length) = tag.length := by
        rcases ht with rfl | rfl <;> simp [longTag, shortTag, long, short]
      have hbytes : utf8Len tag = tag.length := by
        rcases ht with rfl | rfl <;> rfl
      simp [beforeTag, hlen, hbytes]
    | cons c html =>
      have hc := c.utf8Size_pos.ne'
      simp [beforeTag, hc]

theorem outsideTags_longTag (h : ¬longTag <:+: html) :
    outsideTags ⟨pos, html ++ (longTag ++ rest)⟩ = beforeTag pos html longTag rest := by
  apply outsideTags_of_find? (.inl rfl)
  rw [find?_longTag h, Option.some_or]

/-- A short tag counts unless a long one stands behind it. -/
theorem outsideTags_firstTag (h : FirstTag html tag) (hs : tag = shortTag → ¬longTag <:+: rest) :
    outsideTags ⟨pos, html ++ (tag ++ rest)⟩ = beforeTag pos html tag rest := by
  rcases h.tag with rfl | rfl
  · exact outsideTags_longTag h.html.1
  · have hnone : Cursor.find? longTag pos (html ++ (shortTag ++ rest)) = none := by
      rw [Cursor.find?_eq_none_iff (by decide), longTag_infix_iff, not_or]
      exact ⟨h.html.1, hs rfl⟩
    apply outsideTags_of_find? (.inr rfl)
    rw [hnone, Option.none_or, find?_shortTag h.html.2]

theorem outsideTags_tagFree (h : TagFree cs) (hne : cs ≠ []) :
    outsideTags ⟨pos, cs⟩ = ⟨.inlineHtml, [], Cursor.last ⟨pos, cs⟩⟩ := by
  unfold outsideTags
  extract_lets long short
  have hlong : Cursor.find? long pos cs = none := (Cursor.find?_eq_none_iff (by decide)).mpr h.1
  have hshort : Cursor.find? short pos cs = none := (Cursor.find?_eq_none_iff (by decide)).mpr h.2
  split
  · contradiction
  · simp only [Option.orElse_eq_orElse, Option.orElse_eq_or, hlong, hshort, Option.or_none]

theorem inTags_ne_inlineHtml (start : Cursor) : (inTags start).kind ≠ .inlineHtml := by
  by_cases h : start.rest = []
  · simp [inTags, h]
  · intro he
    simpa [he, TokenKind.isOutside] using inTags_inside h

end Lexeme

namespace Token

variable {source : List Char} {place : Cursor}

theorem next_outside (place : Cursor) : next false place =
    (Slice.cut place (Lexeme.outsideTags place) none, (Lexeme.outsideTags place).after,
      match (Lexeme.outsideTags place).kind with | .openTag => true | .closeTag => false | _ => false) :=
  rfl

/-- The token after which the scanner is inside of tags. -/
def tagAfter (n : Nat) (html : List Char) : Nat := if html = [] then n else n + 1

/-- The text before an opening tag is one token, if there is any, and the tag is the next one. From there
on all tokens are inside of tags up to a closing tag. -/
structure Opens (source : List Char) (n : Nat) (html tag rest : List Char) : Prop where
  before : html ≠ [] → (nth source n).kind = .inlineHtml ∧ (nth source n).text = String.ofList html
  tag : (nth source (tagAfter n html)).kind = .openTag ∧
    (nth source (tagAfter n html)).text = String.ofList tag
  rest : (stateAfter source (tagAfter n html + 1)).2.rest = rest
  inside : ∀ m, tagAfter n html < m →
    (∀ k, tagAfter n html < k → k < m → (nth source k).kind ≠ .closeTag) →
      (stateAfter source m).1 = true ∧ (nth source m).kind ≠ .inlineHtml

/-- The tokens at a place before a tag. -/
theorem nth_of_beforeTag (ho : (stateAfter source n).1 = false)
    (hl : Lexeme.outsideTags (stateAfter source n).2 =
      Lexeme.beforeTag (stateAfter source n).2.pos html tag rest)
    (hr : (stateAfter source n).2.rest = html ++ (tag ++ rest)) :
    if html = [] then
      (nth source n).kind = .openTag ∧ (nth source n).text = String.ofList tag ∧
        (stateAfter source (n + 1)).1 = true ∧ (stateAfter source (n + 1)).2.rest = rest
    else
      (nth source n).kind = .inlineHtml ∧ (nth source n).text = String.ofList html ∧
        (stateAfter source (n + 1)).1 = false ∧
        (stateAfter source (n + 1)).2.rest = tag ++ rest := by
  have hnth : nth source n = (next false (stateAfter source n).2).1 := by rw [nth, ho]
  have hsucc : stateAfter source (n + 1) = ((next (stateAfter source n).1 (stateAfter source n).2).2.2,
      (next (stateAfter source n).1 (stateAfter source n).2).2.1) := rfl
  rw [ho] at hsucc
  rw [hnth, hsucc, next_outside, hl, Lexeme.beforeTag]
  have htext (w cs : List Char) (hr : (stateAfter source n).2.rest = w ++ cs) :
      (stateAfter source n).2.textTo ((stateAfter source n).2.pos + utf8Len w) = w := by
    have ht := Cursor.textTo_append (stateAfter source n).2.pos w cs
    rwa [← hr] at ht
  split
  · next hh =>
    subst hh
    exact ⟨rfl, congrArg String.ofList (htext tag rest hr), rfl, rfl⟩
  · exact ⟨rfl, congrArg String.ofList (htext html _ hr), rfl, rfl⟩

theorem kind_ne_inlineHtml (hi : (stateAfter source n).1 = true) :
    (nth source n).kind ≠ .inlineHtml := by
  have hkind : (nth source n).kind = (Lexeme.inTags
      (Trivia.skip none .blank (stateAfter source n).2.pos (stateAfter source n).2.rest).1).kind := by
    rw [nth, hi]
    rfl
  rw [hkind]
  exact Lexeme.inTags_ne_inlineHtml _

/-- Inside of tags the scanner stays there until a closing tag. -/
theorem inside_of_ne_closeTag {m : Nat} (hi : (stateAfter source n).1 = true) (hm : n ≤ m)
    (hc : ∀ k, n ≤ k → k < m → (nth source k).kind ≠ .closeTag) : (stateAfter source m).1 = true := by
  induction m, hm using Nat.le_induction with
  | base => exact hi
  | succ m hm ih =>
    have hin := ih fun k hk hlt => hc k hk (hlt.trans (Nat.lt_succ_self m))
    have hk := hc m hm (Nat.lt_succ_self m)
    have hsucc : (stateAfter source (m + 1)).1 = match (nth source m).kind with
      | .openTag => true
      | .closeTag => false
      | _ => (stateAfter source m).1 := rfl
    rw [hsucc]
    split
    · rfl
    · contradiction
    · exact hin

/-- A short tag with a long one behind it is in the same text as what stands between the two. -/
theorem nth_of_longTag {mid : List Char} (ho : (stateAfter source n).1 = false) (hh : TagFree html)
    (hr : (stateAfter source n).2.rest = html ++ (shortTag ++ (mid ++ (longTag ++ rest))))
    (hm : ¬longTag <:+: mid) :
    (nth source n).kind = .inlineHtml ∧
      (nth source n).text = String.ofList (html ++ (shortTag ++ mid)) := by
  have hr' : (stateAfter source n).2.rest = (html ++ (shortTag ++ mid)) ++ (longTag ++ rest) := by
    simpa using hr
  have hfree : ¬longTag <:+: html ++ (shortTag ++ mid) := by
    rw [longTag_infix_iff, not_or]
    exact ⟨hh.1, hm⟩
  have hne : html ++ (shortTag ++ mid) ≠ [] := by simp [shortTag]
  have hl : Lexeme.outsideTags (stateAfter source n).2 = Lexeme.beforeTag (stateAfter source n).2.pos
      (html ++ (shortTag ++ mid)) longTag rest := by
    rw [← Lexeme.outsideTags_longTag hfree, ← hr']
  have hn := nth_of_beforeTag ho hl hr'
  rw [if_neg hne] at hn
  exact ⟨hn.1, hn.2.1⟩

theorem opens_of_firstTag (ho : (stateAfter source n).1 = false) (hf : FirstTag html tag)
    (hr : (stateAfter source n).2.rest = html ++ (tag ++ rest))
    (hs : tag = shortTag → ¬longTag <:+: rest) : Opens source n html tag rest := by
  have hn {k : Nat} (w : List Char) (ho : (stateAfter source k).1 = false)
      (hf : FirstTag w tag) (hr : (stateAfter source k).2.rest = w ++ (tag ++ rest)) := by
    refine nth_of_beforeTag ho ?_ hr
    rw [← Lexeme.outsideTags_firstTag hf hs, ← hr]
  -- at the tag itself, which is the next token or the one behind the text
  have htag : (nth source (tagAfter n html)).kind = .openTag ∧
      (nth source (tagAfter n html)).text = String.ofList tag ∧
      (stateAfter source (tagAfter n html + 1)).1 = true ∧
      (stateAfter source (tagAfter n html + 1)).2.rest = rest := by
    have hfirst := hn html ho hf hr
    unfold tagAfter
    split
    · next hh => rwa [if_pos hh] at hfirst
    · next hh =>
      rw [if_neg hh] at hfirst
      simpa using hn [] hfirst.2.2.1 ⟨hf.tag, tagFree_nil⟩ hfirst.2.2.2
  constructor
  case before =>
    intro hh
    have hfirst := hn html ho hf hr
    rw [if_neg hh] at hfirst
    exact ⟨hfirst.1, hfirst.2.1⟩
  case tag => exact ⟨htag.1, htag.2.1⟩
  case rest => exact htag.2.2.2
  case inside =>
    intro m hm hc
    have hi := inside_of_ne_closeTag htag.2.2.1 hm fun k hk hlt => hc k hk hlt
    exact ⟨hi, kind_ne_inlineHtml hi⟩

/-- An opening tag opens unless it is a short one with a long one behind it. -/
theorem opens_iff (ho : (stateAfter source n).1 = false) (hf : FirstTag html tag)
    (hr : (stateAfter source n).2.rest = html ++ (tag ++ rest)) :
    Opens source n html tag rest ↔ (tag = shortTag → ¬longTag <:+: rest) := by
  constructor
  · rintro h rfl hlong
    obtain ⟨mid, behind, rfl, hm⟩ := exists_longTag hlong
    obtain ⟨hkind, htext⟩ := nth_of_longTag ho hf.html hr hm
    cases html with
    | nil =>
      have htag := h.tag.1
      rw [tagAfter, if_pos rfl, hkind] at htag
      cases htag
    | cons c html =>
      have hb := (h.before (List.cons_ne_nil c html)).2
      rw [htext, String.ofList_inj] at hb
      simp [shortTag] at hb
  · exact opens_of_firstTag ho hf hr

/-- With no long tag behind it a text ends at the first short one. -/
theorem tagFree_nth (ho : (stateAfter source n).1 = false)
    (hk : (nth source n).kind = .inlineHtml) (hlong : ¬longTag <:+: (stateAfter source n).2.rest) :
    TagFree (nth source n).text.toList := by
  by_cases hfree : TagFree (stateAfter source n).2.rest
  · have hne : (stateAfter source n).2.rest ≠ [] := by
      intro hnil
      have hl : Lexeme.outsideTags (stateAfter source n).2 = ⟨.endOfFile, [], (stateAfter source n).2⟩ := by
        rw [Lexeme.outsideTags, hnil]
      rw [nth, ho, next_outside, hl] at hk
      cases hk
    have htext : (nth source n).text = String.ofList (stateAfter source n).2.rest := by
      rw [nth, ho, next_outside, Lexeme.outsideTags_tagFree hfree hne, Slice.cut, Cursor.last_eq]
      have ht := Cursor.textTo_append (stateAfter source n).2.pos (stateAfter source n).2.rest []
      rw [List.append_nil] at ht
      exact congrArg String.ofList ht
    rwa [htext, String.toList_ofList]
  · obtain ⟨html, tag, rest, hf, hr⟩ := exists_firstTag hfree
    have hrest : ¬longTag <:+: rest := by
      intro h
      exact hlong (hr ▸ h.trans ⟨html ++ tag, [], by simp⟩)
    have hn := nth_of_beforeTag ho (by rw [← Lexeme.outsideTags_firstTag hf fun _ => hrest, ← hr]) hr
    split at hn
    · rw [hn.1] at hk
      cases hk
    · rw [hn.2.1, String.toList_ofList]
      exact hf.html

/-- No text outside of tags has a long tag in it, and one has a short tag exactly if a long one stands
behind that. -/
theorem tagFree_nth_iff (ho : (stateAfter source n).1 = false)
    (hk : (nth source n).kind = .inlineHtml) :
    ¬longTag <:+: (nth source n).text.toList ∧
      (TagFree (nth source n).text.toList ↔ ∀ html rest,
        (stateAfter source n).2.rest = html ++ (shortTag ++ rest) → TagFree html →
          ¬longTag <:+: rest) := by
  by_cases hlong : longTag <:+: (stateAfter source n).2.rest
  · obtain ⟨html, rest, hr, hm⟩ := exists_longTag hlong
    have hl : Lexeme.outsideTags (stateAfter source n).2 =
        Lexeme.beforeTag (stateAfter source n).2.pos html longTag rest := by
      rw [← Lexeme.outsideTags_longTag hm, ← hr]
    have hn := nth_of_beforeTag ho hl hr
    split at hn
    · rw [hn.1] at hk
      cases hk
    · rw [hn.2.1, String.toList_ofList]
      refine ⟨hm, ?_⟩
      constructor
      · rintro hfree before behind hb hh hbehind
        obtain ⟨mid, last, rfl, hmid⟩ := exists_longTag hbehind
        have htext := (nth_of_longTag ho hh hb hmid).2
        rw [hn.2.1, String.ofList_inj] at htext
        exact hfree.2 ⟨before, mid, by rw [htext, List.append_assoc]⟩
      · intro h
        by_contra hfree
        obtain ⟨before, tag, behind, hf, rfl⟩ := exists_firstTag hfree
        rcases hf.tag with rfl | rfl
        · exact hm ⟨before, behind, List.append_assoc _ _ _⟩
        · apply h before (behind ++ (longTag ++ rest)) (by simpa using hr) hf.html
          exact ⟨behind, rest, List.append_assoc _ _ _⟩
  · have hfree := tagFree_nth ho hk hlong
    refine ⟨hfree.1, iff_of_true hfree ?_⟩
    rintro before behind hr - hbehind
    exact hlong (hr ▸ hbehind.trans ⟨before ++ shortTag, [], by simp⟩)

/-- A text outside of tags has no long tag in it, and has no short one exactly if there is none
outside of tags that a long one follows. Where one of the two opens tags, which is so for all but such
short ones, what comes behind it is inside of tags up to a closing tag. -/
theorem inlineHtml_tagFree_iff (source : List Char) :
    (∀ t ∈ ofSource source, t.kind = .inlineHtml → ¬longTag <:+: t.text.toList) ∧
    ((∀ t ∈ ofSource source, t.kind = .inlineHtml → TagFree t.text.toList) ↔
      ∀ n html rest, (stateAfter source n).1 = false →
        (stateAfter source n).2.rest = html ++ (shortTag ++ rest) → TagFree html →
          ¬longTag <:+: rest) ∧
    ∀ n html tag rest, (stateAfter source n).1 = false → FirstTag html tag →
      (stateAfter source n).2.rest = html ++ (tag ++ rest) →
        (Opens source n html tag rest ↔ (tag = shortTag → ¬longTag <:+: rest)) := by
  obtain ⟨last, -, htiles, hof⟩ := scanning_tiles source
  have hmem {t : Token} (ht : t ∈ ofSource source) (hk : t.kind = .inlineHtml) :
      ∃ n, nth source n = t ∧ (stateAfter source n).1 = false := by
    rw [hof] at ht
    obtain ⟨n, -, rfl⟩ := List.mem_map.mp ht
    exact ⟨n, rfl, Bool.eq_false_iff.mpr fun hi => kind_ne_inlineHtml hi hk⟩
  have hnth {n : Nat} (hk : (nth source n).kind = .inlineHtml) : nth source n ∈ ofSource source := by
    have hlt : n < last := by
      by_contra hle
      rw [(htiles.endOfFile n).mpr (Nat.not_lt.mp hle)] at hk
      cases hk
    rw [hof]
    exact List.mem_map_of_mem (List.mem_range.mpr (Nat.lt_succ_of_lt hlt))
  refine ⟨?_, ⟨?_, ?_⟩, fun n html tag rest => opens_iff⟩
  · intro t ht hk
    obtain ⟨n, rfl, ho⟩ := hmem ht hk
    exact (tagFree_nth_iff ho hk).1
  · rintro h n html rest ho hr hh hlong
    obtain ⟨mid, behind, hb, hm⟩ := exists_longTag hlong
    have hk := (nth_of_longTag ho hh (hb ▸ hr) hm).1
    exact (tagFree_nth_iff ho hk).2.mp (h _ (hnth hk) hk) html rest hr hh hlong
  · intro h t ht hk
    obtain ⟨n, rfl, ho⟩ := hmem ht hk
    exact (tagFree_nth_iff ho hk).2.mpr fun html rest => h n html rest ho

theorem inlineHtml_tagFree_iff_short :
    Opens "<b><?= 1 ?></b>".toList 0 "<b>".toList shortTag " 1 ?></b>".toList := by
  have hf : FirstTag "<b>".toList shortTag := ⟨.inr rfl, by decide +kernel, by decide +kernel⟩
  have hr : "<b><?= 1 ?></b>".toList = "<b>".toList ++ (shortTag ++ " 1 ?></b>".toList) := by
    decide +kernel
  have hlong : ¬longTag <:+: " 1 ?></b>".toList := by decide +kernel
  exact ((inlineHtml_tagFree_iff _).2.2 0 _ _ _ rfl hf hr).mpr fun _ => hlong

/-- A long tag behind a short one makes the short one a text. -/
theorem exists_shortTag_in_inlineHtml : ∃ source, ∃ t ∈ ofSource source,
    t.kind = .inlineHtml ∧ t.text = "<?= 1 ?> " ∧ shortTag <:+: t.text.toList := by
  have hmem : nth "<?= 1 ?> <?php 2".toList 0 ∈ ofSource "<?= 1 ?> <?php 2".toList := by
    decide +kernel
  have hkind : (nth "<?= 1 ?> <?php 2".toList 0).kind = .inlineHtml := by decide +kernel
  have htext : (nth "<?= 1 ?> <?php 2".toList 0).text = "<?= 1 ?> " := by decide +kernel
  refine ⟨_, _, hmem, hkind, htext, ?_⟩
  rw [htext]
  decide +kernel

end Token

end PhpAtlas
