import PhpAtlas.Proofs.Token.Slices

/-! # Tokens of slices

Whether a lexeme goes on is seen from the characters up to the closing brace of a
slice. So a lexeme that ends in the slice is the same one in the other text, and so
are all tokens up to the brace.
-/

namespace PhpAtlas

open String (utf8Len)

namespace Slice

variable {K : Slice} {c c' d d' : Cursor} {pos pos' n : Nat} {x y : Char} {cs us ds : List Char}

theorem beside_takeWhile {p : Char → Bool} (h : K.Beside ⟨pos, cs⟩ ⟨pos', us⟩)
    (hk : K.Holds (Cursor.skipWhile p pos cs).rest) : us.takeWhile p = cs.takeWhile p := by
  induction cs generalizing pos pos' us with
  | nil => exact absurd h not_beside_nil
  | cons x cs ih =>
    obtain ⟨us, rfl, hb, -⟩ := h.uncons
    rw [Cursor.skipWhile] at hk
    rw [List.takeWhile_cons, List.takeWhile_cons]
    split
    · next hx =>
      rw [if_pos hx] at hk
      exact congrArg _ (ih (hb (hk.of_le (Cursor.runs_skipWhile _ _ _).length_le) _) hk)
    · rfl

theorem Beside.ne_nil (h : K.Beside c c') : c'.rest ≠ [] := by
  obtain ⟨⟨w, -, hc'⟩, -⟩ := h
  exact hc' ▸ List.append_ne_nil_of_right_ne_nil _ (List.cons_ne_nil _ _)

/-- Only the last brace of the piece has nothing of the piece behind it. -/
theorem Beside.tail_eq_nil (h : K.Beside ⟨pos, x :: cs⟩ ⟨pos', x :: us⟩) (hk : ¬K.Holds cs) :
    us = [] := by
  obtain ⟨⟨w, hc, hc'⟩, -⟩ := h
  cases w with
  | nil => exact (List.cons.inj hc').2
  | cons y w =>
    have hcs : cs = w ++ '\x7d' :: K.after := (List.cons.inj hc).2
    refine absurd ?_ hk
    rw [hcs, Holds, List.length_append, List.length_cons]
    omega

/-- One byte further on. -/
theorem Beside.drop_one (h : K.Beside c c') (hk : K.Holds (c.rest.drop 1)) :
    K.Beside ⟨c.pos + 1, c.rest.drop 1⟩ ⟨c'.pos + 1, c'.rest.drop 1⟩ := by
  obtain ⟨pos, cs⟩ := c
  obtain ⟨pos', us⟩ := c'
  cases cs with
  | nil => exact absurd h not_beside_nil
  | cons x cs =>
    obtain ⟨us, rfl, -, hb⟩ := h.tail hk
    exact hb 1

/-! ## Names and numbers -/

theorem nameEnd_stays (hx : ¬isNamePart x = true)
    (h : x = '\\' → ∀ y ∈ cs.head?, isNameStart y = false) :
    Lexeme.nameEnd pos (x :: cs) = ⟨pos, x :: cs⟩ := by
  unfold Lexeme.nameEnd
  split
  · next y ds he =>
    cases he
    rw [if_neg (Bool.eq_false_iff.mp (h rfl y rfl))]
  · next he =>
    cases he
    rw [if_neg hx]
  · next he => cases he

theorem beside_nameEnd (h : K.Beside ⟨pos, cs⟩ ⟨pos', us⟩)
    (hk : K.Holds (Lexeme.nameEnd pos cs).rest) :
    K.Beside (Lexeme.nameEnd pos cs) (Lexeme.nameEnd pos' us) := by
  have hle (pos : Nat) (cs : List Char) := (Lexeme.runs_nameEnd pos cs).leads.length_le
  fun_induction Lexeme.nameEnd pos cs generalizing pos' us with
  | case1 pos y cs hy ih =>
    obtain ⟨us, rfl, hb⟩ := h.tail₂ (hk.of_le (hle _ _))
    have hb := hb (1 + y.utf8Size)
    rw [← Nat.add_assoc, ← Nat.add_assoc] at hb
    rw [Lexeme.nameEnd_backslash hy]
    exact ih hb hk
  | case2 pos y cs hy =>
    obtain ⟨us, rfl, hhead⟩ := h.second
    have hhead := hhead (by decide)
    obtain ⟨us, rfl⟩ := List.head?_eq_some_iff.mp hhead
    rw [Lexeme.nameEnd, if_neg hy]
    exact h
  | case3 pos x cs _ hx ih =>
    obtain ⟨us, rfl, -, hb⟩ := h.tail (hk.of_le (hle _ _))
    rw [Lexeme.nameEnd_part hx]
    exact ih (hb _) hk
  | case4 pos x cs hesc hx =>
    obtain ⟨us, rfl, hhead⟩ := h.second
    rw [nameEnd_stays hx]
    · exact h
    · rintro rfl y hy
      rw [hhead (by decide)] at hy
      obtain ⟨cs, rfl⟩ := List.head?_eq_some_iff.mp hy
      exact absurd rfl (hesc _ _ rfl)
  | case5 => exact absurd h not_beside_nil

theorem beside_numberEnd (h : K.Beside ⟨pos, cs⟩ ⟨pos', us⟩)
    (hk : K.Holds (Lexeme.numberEnd pos cs).rest) :
    K.Beside (Lexeme.numberEnd pos cs) (Lexeme.numberEnd pos' us) := by
  induction cs generalizing pos pos' us with
  | nil => exact absurd h not_beside_nil
  | cons x cs ih =>
    obtain ⟨us, rfl, hhead⟩ := h.second
    have hdot : (x == '.' && us.head?.any Char.isDigit) = (x == '.' && cs.head?.any Char.isDigit) := by
      by_cases hx : x = '.'
      · rw [hhead (hx ▸ by decide)]
      · rw [beq_false_of_ne hx, Bool.false_and, Bool.false_and]
    rw [Lexeme.numberEnd, Lexeme.numberEnd, hdot]
    rw [Lexeme.numberEnd] at hk
    split
    · next hx =>
      rw [if_pos hx] at hk
      obtain ⟨_, hus, -, hb⟩ := h.tail (hk.of_le (Lexeme.runs_numberEnd _ _).length_le)
      cases hus
      exact ih (hb _) hk
    · exact h

/-! ## Lexemes -/

/-- The same lexeme, up to the same place of the piece. -/
structure Same (K : Slice) (l l' : Lexeme) : Prop where
  kind : l'.kind = l.kind
  value : l'.value = l.value
  after : K.Beside l.after l'.after

theorem same_unknown (h : K.Beside c c') : K.Same (.unknown c) (.unknown c') := ⟨rfl, rfl, h⟩

theorem same_dollar (h : K.Beside ⟨pos + 1, cs⟩ ⟨pos' + 1, us⟩)
    (hk : K.Holds (Lexeme.dollar pos cs).after.rest) :
    K.Same (Lexeme.dollar pos cs) (Lexeme.dollar pos' us) := by
  unfold Lexeme.dollar at hk ⊢
  rw [show us.head? = cs.head? from h.head]
  split
  · next hc =>
    rw [if_pos hc] at hk
    exact ⟨rfl, beside_takeWhile h hk, beside_skipWhile h hk⟩
  · exact ⟨rfl, rfl, h⟩

theorem same_number (h : K.Beside c c') (hk : K.Holds (Lexeme.number c).after.rest) :
    K.Same (Lexeme.number c) (Lexeme.number c') := by
  have hb : K.Beside (Lexeme.number c).after (Lexeme.number c').after := beside_numberEnd h hk
  refine ⟨rfl, ?_, hb⟩
  exact congrArg (List.filter (· != '_')) (h.textTo hb (Lexeme.runs_numberEnd _ _).leads le_rfl hb.pos)

theorem same_name (h : K.Beside c c') (hk : K.Holds (Lexeme.name c).after.rest) :
    K.Same (Lexeme.name c) (Lexeme.name c') := by
  obtain ⟨pos, cs⟩ := c
  obtain ⟨pos', us⟩ := c'
  obtain ⟨w, hw, hp, -⟩ := Lexeme.exists_name pos cs
  have ht : Cursor.textTo ⟨pos, cs⟩ (Lexeme.nameEnd pos cs).pos = w := by
    rw [hp]
    conv_lhs => rw [hw]
    exact Cursor.textTo_append pos w _
  have hn : K.Holds (Lexeme.nameEnd pos cs).rest := by
    simp only [Lexeme.name, ht] at hk
    split at hk
    · next he =>
      rw [List.isEmpty_iff.mp he] at hw
      exact h.holds.trans_eq (congrArg List.length hw)
    · exact hk
  have hb := beside_nameEnd h hn
  have ht' := h.textTo hb (Lexeme.runs_nameEnd _ _).leads le_rfl hb.pos
  unfold Lexeme.name at hk ⊢
  simp only at hk ⊢
  rw [ht']
  split
  · next he =>
    rw [if_pos he] at hk
    exact same_unknown (h.drop_one hk)
  · exact ⟨rfl, rfl, hb⟩

theorem closing_cons {q : Char} (hx : x ≠ '\\') : Quoted.closing q pos (x :: cs) =
    if x == q then (⟨pos + 1, cs⟩, true) else Quoted.closing q (pos + x.utf8Size) cs := by
  rw [Quoted.closing]
  · rintro y ds rfl
    exact absurd rfl hx
  · rintro rfl
    exact absurd rfl hx

theorem beside_closing {q : Char} (hq : q.utf8Size = 1) (h : K.Beside ⟨pos, cs⟩ ⟨pos', us⟩)
    (hk : K.Holds (Quoted.closing q pos cs).1.rest) :
    K.Beside (Quoted.closing q pos cs).1 (Quoted.closing q pos' us).1 ∧
      (Quoted.closing q pos' us).2 = (Quoted.closing q pos cs).2 := by
  have hle {pos : Nat} {cs : List Char} (hk : K.Holds (Quoted.closing q pos cs).1.rest) : K.Holds cs :=
    hk.of_le (Quoted.leads_closing q hq _ _).length_le
  fun_induction Quoted.closing q pos cs generalizing pos' us with
  | case1 pos y cs ih =>
    obtain ⟨us, rfl, hb⟩ := h.tail₂ (hle hk)
    have hb := hb (1 + y.utf8Size)
    rw [← Nat.add_assoc, ← Nat.add_assoc] at hb
    rw [Quoted.closing]
    exact ih hb hk
  | case2 => exact absurd hk (Nat.not_lt_zero _)
  | case3 pos x cs hesc hesc' hx =>
    obtain ⟨us, rfl, -, hb⟩ := h.tail hk
    rw [closing_cons (ne_backslash hesc hesc'), if_pos hx]
    exact ⟨hb 1, rfl⟩
  | case4 pos x cs hesc hesc' hx ih =>
    obtain ⟨us, rfl, -, hb⟩ := h.tail (hle hk)
    rw [closing_cons (ne_backslash hesc hesc'), if_neg hx]
    exact ih (hb _) hk
  | case5 => exact absurd h not_beside_nil

theorem same_quoted {q : Char} (hq : q.utf8Size = 1) (h : K.Beside ⟨pos + 1, cs⟩ ⟨pos' + 1, us⟩)
    (hk : K.Holds (Lexeme.quoted q ⟨pos + 1, cs⟩).after.rest) :
    K.Same (Lexeme.quoted q ⟨pos + 1, cs⟩) (Lexeme.quoted q ⟨pos' + 1, us⟩) := by
  rw [Lexeme.after_quoted] at hk
  obtain ⟨hb, hclosed⟩ := beside_closing hq h hk
  have hleads := Quoted.leads_closing q hq (pos + 1) cs
  have hle : pos + 1 ≤ _ := hleads.pos_le
  have hle' : pos' + 1 ≤ _ := (Quoted.leads_closing q hq (pos' + 1) us).pos_le
  have hp := hb.pos
  unfold Lexeme.quoted
  simp only
  generalize Quoted.closing q (pos + 1) cs = found at *
  generalize Quoted.closing q (pos' + 1) us = found' at *
  obtain ⟨after, closed⟩ := found
  obtain ⟨after', closed'⟩ := found'
  obtain rfl : closed' = closed := hclosed
  cases closed' with
  | false => exact same_unknown hb
  | true =>
    have ht : Cursor.textTo ⟨pos' + 1, us⟩ (after'.pos - 1) =
        Cursor.textTo ⟨pos + 1, cs⟩ (after.pos - 1) :=
      h.textTo hb hleads (Nat.sub_le _ _) (by simp only at *; omega)
    exact ⟨rfl, by simp only [ht], hb⟩

/-! ## Punctuation -/

theorem spellings_brace : ∀ s ∈ Lexeme.spellings, '\x7d' ∈ s.1 → s.1 = ['\x7d'] := by
  decide +kernel

theorem Beside.isPrefixOf_spelling (h : K.Beside c c') {s : List Char × TokenKind}
    (hs : s ∈ Lexeme.spellings) : s.1.isPrefixOf c'.rest = s.1.isPrefixOf c.rest := by
  by_cases hb : '\x7d' ∈ s.1
  · rw [spellings_brace s hs hb]
    obtain ⟨⟨w, hc, hc'⟩, -⟩ := h
    rw [hc, hc']
    cases w <;> rfl
  · exact h.isPrefixOf hb

theorem Beside.append {w : List Char} (h : K.Beside ⟨pos, w ++ cs⟩ ⟨pos', us⟩) (hk : K.Holds cs) :
    ∃ us', us = w ++ us' ∧ ∀ n, K.Beside ⟨pos + n, cs⟩ ⟨pos' + n, us'⟩ := by
  induction w generalizing us with
  | nil => exact ⟨us, rfl, fun n => ⟨h.rest, by have := h.pos; simp only at this ⊢; omega⟩⟩
  | cons x w ih =>
    have hw : K.Holds (w ++ cs) :=
      hk.of_le (by rw [List.length_append]; exact Nat.le_add_left _ _)
    obtain ⟨us, rfl, -, hb⟩ := h.tail hw
    obtain ⟨us, rfl, hb'⟩ := ih (hb 0)
    exact ⟨us, rfl, hb'⟩

theorem Beside.drop {w : List Char} (h : K.Beside ⟨pos, cs⟩ ⟨pos', us⟩) (hw : w <+: cs)
    (hk : K.Holds (cs.drop w.length)) :
    K.Beside ⟨pos + w.length, cs.drop w.length⟩ ⟨pos' + w.length, us.drop w.length⟩ := by
  obtain ⟨cs, rfl⟩ := hw
  rw [List.drop_left] at hk ⊢
  obtain ⟨us, rfl, hb⟩ := h.append hk
  rw [List.drop_left]
  exact hb _

theorem Beside.find?_spellings (h : K.Beside c c') :
    (Lexeme.spellings.find? fun (text, _) => text.isPrefixOf c'.rest) =
      Lexeme.spellings.find? fun (text, _) => text.isPrefixOf c.rest := by
  rw [← List.head?_filter, ← List.head?_filter]
  exact congrArg _ (List.filter_congr fun s hs => h.isPrefixOf_spelling hs)

theorem same_punctuation (h : K.Beside c c') (hk : K.Holds (Lexeme.punctuation c).after.rest) :
    K.Same (Lexeme.punctuation c) (Lexeme.punctuation c') := by
  obtain ⟨pos, cs⟩ := c
  obtain ⟨pos', us⟩ := c'
  unfold Lexeme.punctuation at hk ⊢
  simp only [h.find?_spellings] at hk ⊢
  generalize hf : Lexeme.spellings.find? _ = found at hk ⊢
  cases found with
  | none =>
    exact same_unknown (h.drop_one hk)
  | some found =>
    obtain ⟨text, kind⟩ := found
    simp only at hk ⊢
    have hdrop : K.Holds (cs.drop text.length) := by
      revert hk
      split
      · next hr =>
        rw [hr]
        exact fun hk => hk.of_le (Nat.le_succ _)
      · exact id
      · exact id
    have hb := h.drop (by simpa using List.find?_some hf) hdrop
    generalize cs.drop text.length = ds at hk hb ⊢
    generalize us.drop text.length = vs at hb ⊢
    have hv : vs.head? = ds.head? := hb.head
    split
    · obtain ⟨vs, rfl⟩ := List.head?_eq_some_iff.mp hv
      exact ⟨rfl, rfl, hb.drop_one hk⟩
    · exact ⟨rfl, rfl, hb⟩
    · next hoperator hnewline =>
      split
      · obtain ⟨ds, rfl⟩ := List.head?_eq_some_iff.mp hv.symm
        exact (hnewline ds rfl rfl).elim
      · exact (hoperator rfl).elim
      · exact ⟨rfl, rfl, hb⟩

/-! ## Heredocs -/

/-- A search that stops at a brace does not leave the piece. -/
theorem Beside.holds_skipWhile {p : Char → Bool} (h : K.Beside ⟨pos, cs⟩ ⟨pos', us⟩)
    (hp : p '\x7d' = false) : K.Holds (Cursor.skipWhile p pos cs).rest := by
  induction cs generalizing pos pos' us with
  | nil => exact absurd h not_beside_nil
  | cons x cs ih =>
    obtain ⟨us, rfl, hb, hk⟩ := h.uncons
    rw [Cursor.skipWhile]
    split
    · next hx =>
      refine ih (hb (hk ?_) _)
      rintro rfl
      exact Bool.noConfusion (hp.symm.trans hx)
    · exact h.holds

theorem beside_openQuote (h : K.Beside c c') :
    (Heredoc.openQuote c').1 = (Heredoc.openQuote c).1 ∧
      K.Beside (Heredoc.openQuote c).2 (Heredoc.openQuote c').2 := by
  obtain ⟨pos, cs⟩ := c
  obtain ⟨pos', us⟩ := c'
  cases cs with
  | nil => exact absurd h not_beside_nil
  | cons x cs =>
    obtain ⟨us, rfl, hb, hk⟩ := h.uncons
    unfold Heredoc.openQuote
    split
    · next he =>
      cases he
      exact ⟨rfl, hb (hk (by decide)) 1⟩
    · next he =>
      cases he
      exact ⟨rfl, hb (hk (by decide)) 1⟩
    · next hsingle hdouble =>
      split
      · next he =>
        cases he
        exact (hsingle _ rfl).elim
      · next he =>
        cases he
        exact (hdouble _ rfl).elim
      · exact ⟨rfl, h⟩

theorem dropWhile_brace {p : Char → Bool} (hp : p '\x7d' = false) (w rest : List Char) :
    (w ++ '\x7d' :: rest).dropWhile p = w.dropWhile p ++ '\x7d' :: rest := by
  rw [List.dropWhile_append]
  split
  · next he =>
    rw [List.isEmpty_iff.mp he, List.dropWhile_cons_of_neg (by simp [hp]), List.nil_append]
  · rfl

/-- Whether a line closes a heredoc is seen before the next brace. -/
theorem closes_brace {label : List Char} (hl : '\x7d' ∉ label) (w rest : List Char) :
    Heredoc.closes label (w ++ '\x7d' :: rest) = Heredoc.closes label (w ++ ['\x7d']) := by
  unfold Heredoc.closes
  simp only [dropWhile_brace (show isIndent '\x7d' = false by decide), isPrefixOf_brace hl]
  cases hp : label.isPrefixOf (w.dropWhile isIndent) with
  | false => rfl
  | true =>
    obtain ⟨v, hv⟩ := List.isPrefixOf_iff_prefix.mp hp
    rw [← hv, List.append_assoc, List.append_assoc, List.drop_left, List.drop_left]
    cases v <;> rfl

theorem Beside.closes {label : List Char} (h : K.Beside c c') (hl : '\x7d' ∉ label) :
    Heredoc.closes label c'.rest = Heredoc.closes label c.rest := by
  obtain ⟨⟨w, hc, hc'⟩, -⟩ := h
  rw [hc, hc', closes_brace hl _ K.after]

theorem beside_closingLine {label : List Char} {fresh : Bool} {line : Cursor} (hl : '\x7d' ∉ label)
    (h : K.Beside ⟨pos, cs⟩ ⟨pos', us⟩)
    (hf : Heredoc.closingLine label fresh pos cs = some line) (hk : K.Holds line.rest) :
    ∃ line', Heredoc.closingLine label fresh pos' us = some line' ∧ K.Beside line line' := by
  induction cs generalizing pos pos' us fresh with
  | nil => cases hf
  | cons x cs ih =>
    have heq : Heredoc.closes label us = Heredoc.closes label (x :: cs) := h.closes hl
    obtain ⟨us, rfl, hb, -⟩ := h.uncons
    rw [Heredoc.closingLine] at hf ⊢
    rw [heq]
    split
    · next hc =>
      rw [if_pos hc] at hf
      cases hf
      exact ⟨_, rfl, h⟩
    · next hc =>
      rw [if_neg hc] at hf
      exact ih (hb (hk.of_le (Heredoc.runs_closingLine hf).length_le) _) hf

/-- The same text up to the same place of the piece, or broken off there. -/
inductive SameRead (K : Slice) :
    Except Cursor (List Char × Cursor) → Except Cursor (List Char × Cursor) → Prop
  | ok {text : List Char} {c c' : Cursor} (h : K.Beside c c') : SameRead K (.ok (text, c)) (.ok (text, c'))
  | error {c c' : Cursor} (h : K.Beside c c') : SameRead K (.error c) (.error c')

open Heredoc (placeAfter)

theorem sameRead_label {q : Option Char} (h : K.Beside c c')
    (hk : K.Holds (placeAfter (Heredoc.label q c)).rest) :
    K.SameRead (Heredoc.label q c) (Heredoc.label q c') := by
  obtain ⟨pos, cs⟩ := c
  obtain ⟨pos', us⟩ := c'
  have hn : K.Holds (Cursor.skipWhile isNamePart pos cs).rest := h.holds_skipWhile (by decide)
  have hb := beside_skipWhile h hn
  have ht := beside_takeWhile h hn
  unfold Heredoc.label at hk ⊢
  simp only [ht] at hk ⊢
  cases q with
  | none => exact .ok hb
  | some q =>
    simp only [hb.head] at hk ⊢
    split
    · next hq =>
      rw [if_pos hq] at hk
      exact .ok (hb.drop_one hk)
    · exact .error hb

theorem brace_not_mem_takeWhile {p : Char → Bool} (hp : p '\x7d' = false) (cs : List Char) :
    '\x7d' ∉ cs.takeWhile p :=
  fun h => Bool.noConfusion (hp.symm.trans (List.all_eq_true.mp List.all_takeWhile _ h))

theorem sameRead_header (h : K.Beside ⟨pos, cs⟩ ⟨pos', us⟩)
    (hk : K.Holds (placeAfter (Heredoc.header pos cs)).rest) :
    K.SameRead (Heredoc.header pos cs) (Heredoc.header pos' us) := by
  have hb := beside_skipWhile h (h.holds_skipWhile (p := isIndent) (by decide))
  obtain ⟨hq, hstart⟩ := beside_openQuote hb
  unfold Heredoc.header at hk ⊢
  simp only [hq, hstart.head] at hk ⊢
  split
  · next hc =>
    rw [if_pos hc] at hk
    exact sameRead_label hstart hk
  · exact .error h

theorem sameRead_text {label : List Char} (hl : '\x7d' ∉ label) (h : K.Beside c c')
    (hk : K.Holds (placeAfter (Heredoc.text label c)).rest) :
    K.SameRead (Heredoc.text label c) (Heredoc.text label c') := by
  have hskip := fun hk => beside_skipWhile (p := (· != '\n')) h hk
  unfold Heredoc.text at hk ⊢
  generalize Cursor.skipWhile (· != '\n') c.pos c.rest = newline at hk hskip ⊢
  generalize Cursor.skipWhile (· != '\n') c'.pos c'.rest = newline' at hskip ⊢
  simp only at hk ⊢
  split at hk
  · next he => exact absurd (List.isEmpty_iff.mp he ▸ hk) (Nat.not_lt_zero _)
  · next he =>
    cases hf : Heredoc.closingLine label true (newline.pos + 1) (newline.rest.drop 1) with
    | none =>
      simp only [hf, placeAfter, Cursor.rest_last] at hk
      exact absurd hk (Nat.not_lt_zero _)
    | some line =>
      simp only [hf, placeAfter] at hk
      have hindented : K.Holds (Cursor.skipWhile isIndent line.pos line.rest).rest :=
        hk.of_le (Cursor.runs_skipWhile _ _ _).length_le
      have hline : K.Holds line.rest := hindented.of_le (Cursor.runs_skipWhile _ _ _).length_le
      have hstart : K.Holds (newline.rest.drop 1) := hline.of_le (Heredoc.runs_closingLine hf).length_le
      have hb := hskip (hstart.of_le (by rw [List.length_drop]; exact Nat.sub_le _ _))
      obtain ⟨line', hf', hbline⟩ := beside_closingLine hl (hb.drop_one hstart) hf hline
      have hbindented := beside_skipWhile hbline hindented
      have hafter := beside_skipWhile hbindented hk
      -- The text between both places is the same, and so is the indentation of the closing line.
      have hruns := Heredoc.runs_closingLine hf
      have hle := hruns.leads.pos_le
      have hle' := (Heredoc.runs_closingLine hf').leads.pos_le
      have hpos := hbline.pos
      have htext : Cursor.textTo ⟨newline'.pos + 1, newline'.rest.drop 1⟩ (line'.pos - 1) =
          Cursor.textTo ⟨newline.pos + 1, newline.rest.drop 1⟩ (line.pos - 1) :=
        (hb.drop_one hstart).textTo hbline hruns.leads (Nat.sub_le _ _) (by simp only at *; omega)
      have hindent : (Cursor.skipWhile isIndent line'.pos line'.rest).pos - line'.pos =
          (Cursor.skipWhile isIndent line.pos line.rest).pos - line.pos := by
        have := (Cursor.runs_skipWhile isIndent line.pos line.rest).leads.pos_le
        have := hbindented.pos
        simp only at *
        omega
      rw [if_neg he, if_neg (by simpa using hb.ne_nil)]
      simp only [hf', Heredoc.body, htext, hindent]
      exact .ok hafter

theorem brace_not_in_label {q : Option Char} {label : List Char} (h : Heredoc.label q c = .ok (label, d)) :
    '\x7d' ∉ label := by
  have ht := brace_not_mem_takeWhile (p := isNamePart) (by decide) c.rest
  unfold Heredoc.label at h
  simp only at h
  split at h
  · cases h
    exact ht
  · split at h
    · cases h
      exact ht
    · cases h

theorem brace_not_in_header {label : List Char}
    (h : Heredoc.header pos cs = .ok (label, d)) : '\x7d' ∉ label := by
  unfold Heredoc.header at h
  simp only at h
  split at h
  · exact brace_not_in_label h
  · cases h

theorem sameRead_read (h : K.Beside ⟨pos, cs⟩ ⟨pos', us⟩)
    (hk : K.Holds (placeAfter (Heredoc.read pos cs)).rest) :
    K.SameRead (Heredoc.read pos cs) (Heredoc.read pos' us) := by
  have hheader := fun hk => sameRead_header h hk
  unfold Heredoc.read at hk ⊢
  cases hh : Heredoc.header pos cs with
  | error after =>
    rw [hh] at hheader hk
    generalize Heredoc.header pos' us = found' at hheader ⊢
    cases hheader hk with
    | error hb => exact .error hb
  | ok found =>
    obtain ⟨label, headerEnd⟩ := found
    rw [hh] at hheader hk
    simp only at hk
    generalize Heredoc.header pos' us = found' at hheader ⊢
    cases hheader (hk.of_le (Heredoc.runs_text _ _).length_le) with
    | ok hb => exact sameRead_text (brace_not_in_header hh) hb hk

/-! ## Tokens -/

theorem inTags_cons (hd : x ≠ '$') (hs : x ≠ '\'') (hq : x ≠ '"')
    (hh : "<<<".toList.isPrefixOf (x :: cs) = false) : Lexeme.inTags ⟨pos, x :: cs⟩ =
      if x.isDigit || x == '.' && cs.head?.any Char.isDigit then Lexeme.number ⟨pos, x :: cs⟩
      else if x == '\\' || isNameStart x then Lexeme.name ⟨pos, x :: cs⟩
      else Lexeme.punctuation ⟨pos, x :: cs⟩ := by
  unfold Lexeme.inTags
  split
  · next he => cases he
  · next he =>
    cases he
    exact absurd rfl hd
  · next he =>
    cases he
    exact absurd rfl hs
  · next he =>
    cases he
    exact absurd rfl hq
  · next he =>
    cases he
    cases hh
  · next he =>
    cases he
    rfl

theorem same_heredoc (h : K.Beside ⟨pos, '<' :: '<' :: '<' :: cs⟩ c')
    (hk : K.Holds (Lexeme.inTags ⟨pos, '<' :: '<' :: '<' :: cs⟩).after.rest) :
    K.Same (Lexeme.inTags ⟨pos, '<' :: '<' :: '<' :: cs⟩) (Lexeme.inTags c') := by
  obtain ⟨pos', us⟩ := c'
  have hread : K.Holds (placeAfter (Heredoc.read (pos + 3) cs)).rest := by
    simp only [Lexeme.inTags] at hk
    cases hr : Heredoc.read (pos + 3) cs with
    | ok found =>
      rw [hr] at hk
      exact hk
    | error after =>
      rw [hr] at hk
      exact hk
  obtain ⟨us, rfl, hb⟩ := h.append (w := ['<', '<', '<']) (hread.of_le (Heredoc.runs_read _ _).length_le)
  have hs := sameRead_read (hb 3) hread
  simp only [List.cons_append, List.nil_append, Lexeme.inTags]
  generalize Heredoc.read (pos + 3) cs = found at hs ⊢
  generalize Heredoc.read (pos' + 3) us = found' at hs ⊢
  cases hs with
  | ok hb => exact ⟨rfl, rfl, hb⟩
  | error hb => exact same_unknown hb

theorem same_inTags (h : K.Beside c c') (hk : K.Holds (Lexeme.inTags c).after.rest) :
    K.Same (Lexeme.inTags c) (Lexeme.inTags c') := by
  obtain ⟨pos, cs⟩ := c
  obtain ⟨pos', us⟩ := c'
  have hheredoc : "<<<".toList.isPrefixOf us = "<<<".toList.isPrefixOf cs := h.isPrefixOf (by decide)
  cases cs with
  | nil => exact absurd h not_beside_nil
  | cons x cs =>
    obtain ⟨us, rfl, hb, hh⟩ := h.uncons
    by_cases hd : x = '$'
    · subst hd
      exact same_dollar (hb (hh (by decide)) 1) hk
    by_cases hs : x = '\''
    · subst hs
      exact same_quoted rfl (hb (hh (by decide)) 1) hk
    by_cases hq : x = '"'
    · subst hq
      exact same_quoted rfl (hb (hh (by decide)) 1) hk
    by_cases hp : "<<<".toList.isPrefixOf (x :: cs) = true
    · obtain ⟨ds, hds⟩ := List.isPrefixOf_iff_prefix.mp hp
      cases hds
      exact same_heredoc h hk
    · have hp := Bool.eq_false_iff.mpr hp
      have hhead : (x == '.' && us.head?.any Char.isDigit) =
          (x == '.' && cs.head?.any Char.isDigit) := by
        by_cases hx : x = '.'
        · rw [(hb (hh (hx ▸ by decide)) 0).head]
        · rw [beq_false_of_ne hx, Bool.false_and, Bool.false_and]
      rw [inTags_cons hd hs hq hp] at hk ⊢
      rw [inTags_cons hd hs hq (hheredoc.trans hp), hhead]
      split
      · next hc =>
        rw [if_pos hc] at hk
        exact same_number h hk
      · next hc =>
        rw [if_neg hc] at hk
        split
        · next hn =>
          rw [if_pos hn] at hk
          exact same_name h hk
        · next hn =>
          rw [if_neg hn] at hk
          exact same_punctuation h hk

/-- A pattern that is found in the piece is found at the same place of it, and otherwise there is none
in the piece. -/
theorem beside_find? {pattern : List Char} (hp : '\x7d' ∉ pattern)
    (h : K.Beside ⟨pos, cs⟩ ⟨pos', us⟩) :
    (∃ d d', Cursor.find? pattern pos cs = some d ∧ Cursor.find? pattern pos' us = some d' ∧
        K.Beside d d') ∨
      Cursor.find? pattern pos' us = none ∧
        ∀ d, Cursor.find? pattern pos cs = some d → ¬K.Holds d.rest := by
  induction cs generalizing pos pos' us with
  | nil => exact absurd h not_beside_nil
  | cons x cs ih =>
    have heq := h.isPrefixOf hp
    obtain ⟨us, rfl, hb, -⟩ := h.uncons
    simp only at heq
    rw [Cursor.find?, Cursor.find?, heq]
    split
    · exact .inl ⟨_, _, rfl, rfl, h⟩
    · by_cases hk : K.Holds cs
      · exact ih (hb hk _)
      · obtain rfl := h.tail_eq_nil hk
        exact .inr ⟨rfl, fun d hd hd' => hk (hd'.of_le (Cursor.runs_find? hd).length_le)⟩

/-- An opening tag in the piece is found at the same place of it. -/
theorem exists_tag_beside {long short : List Char} (hl : '\x7d' ∉ long) (hs : '\x7d' ∉ short)
    (h : K.Beside ⟨pos, cs⟩ ⟨pos', us⟩) (hk : K.Holds d.rest)
    (hd : (Cursor.find? long pos cs <|> Cursor.find? short pos cs) = some d) :
    ∃ d', (Cursor.find? long pos' us <|> Cursor.find? short pos' us) = some d' ∧ K.Beside d d' := by
  simp only [Option.orElse_eq_orElse, Option.orElse_eq_or, Option.or_eq_some_iff] at hd ⊢
  rcases hd with hd | ⟨hnone, hd⟩
  · rcases beside_find? hl h with ⟨e, e', he, he', hb⟩ | ⟨-, hno⟩
    · cases hd.symm.trans he
      exact ⟨e', .inl he', hb⟩
    · exact absurd hk (hno d hd)
  · have hnone' : Cursor.find? long pos' us = none := by
      rcases beside_find? hl h with ⟨e, e', he, -⟩ | ⟨hno, -⟩
      · cases hnone.symm.trans he
      · exact hno
    rcases beside_find? hs h with ⟨e, e', he, he', hb⟩ | ⟨-, hno⟩
    · cases hd.symm.trans he
      exact ⟨e', .inr ⟨hnone', he'⟩, hb⟩
    · exact absurd hk (hno d hd)

/-- If the search does not move on, an opening tag stands where it started. -/
theorem tag_here {long short : List Char}
    (hd : (Cursor.find? long pos (x :: cs) <|> Cursor.find? short pos (x :: cs)) = some d)
    (hle : d.pos ≤ pos) : d = ⟨pos, x :: cs⟩ ∧
      (if long.isPrefixOf (x :: cs) then long else short) <+: x :: cs := by
  have hfound {pattern : List Char} (hf : Cursor.find? pattern pos (x :: cs) = some d) :
      d = ⟨pos, x :: cs⟩ ∧ pattern.isPrefixOf (x :: cs) = true := by
    have hp := Cursor.isPrefixOf_find? hf hle
    rw [Cursor.find?, if_pos hp] at hf
    exact ⟨(Option.some.inj hf).symm, hp⟩
  simp only [Option.orElse_eq_orElse, Option.orElse_eq_or, Option.or_eq_some_iff] at hd
  split
  · next hl =>
    refine ⟨?_, List.isPrefixOf_iff_prefix.mp hl⟩
    rcases hd with hd | ⟨-, hd⟩
    · exact (hfound hd).1
    · exact (hfound hd).1
  · next hl =>
    rcases hd with hd | ⟨-, hd⟩
    · exact absurd (hfound hd).2 hl
    · exact ⟨(hfound hd).1, List.isPrefixOf_iff_prefix.mp (hfound hd).2⟩

theorem same_outsideTags (h : K.Beside c c') (hk : K.Holds (Lexeme.outsideTags c).after.rest) :
    K.Same (Lexeme.outsideTags c) (Lexeme.outsideTags c') := by
  obtain ⟨pos, cs⟩ := c
  obtain ⟨pos', us⟩ := c'
  have hlong : "<?php".toList.isPrefixOf us = "<?php".toList.isPrefixOf cs := h.isPrefixOf (by decide)
  cases cs with
  | nil => exact absurd h not_beside_nil
  | cons x cs =>
    obtain ⟨us, rfl, -, -⟩ := h.uncons
    simp only [Lexeme.outsideTags] at hk ⊢
    cases ht : (Cursor.find? "<?php".toList pos (x :: cs) <|>
        Cursor.find? "<?=".toList pos (x :: cs)) with
    | none =>
      simp only [ht, Cursor.rest_last] at hk
      exact absurd hk (Nat.not_lt_zero _)
    | some tag =>
      simp only [ht] at hk
      have htag : K.Holds tag.rest := by
        by_cases hless : pos < tag.pos
        · rw [if_pos hless] at hk
          exact hk
        · rw [(tag_here ht (Nat.le_of_not_lt hless)).1]
          exact h.holds
      obtain ⟨tag', ht', hb⟩ := exists_tag_beside (by decide) (by decide) h htag ht
      have hless : pos' < tag'.pos ↔ pos < tag.pos := by
        have := h.pos
        have := hb.pos
        simp only at *
        omega
      simp only [ht', hlong, hless]
      split
      · exact ⟨rfl, rfl, hb⟩
      · next hn =>
        rw [if_neg hn] at hk
        have htag := (tag_here ht (Nat.le_of_not_lt hn)).2
        simp only [← apply_ite List.length] at hk ⊢
        exact ⟨rfl, rfl, h.drop htag hk⟩

/-- A place of the text in the other text. -/
def place (K : Slice) (pos : Nat) : Nat := pos + K.target - K.origin

/-- A token of the piece in the other text. -/
def token (K : Slice) (t : Token) : Token :=
  { t with start := K.place t.start, stop := K.place t.stop }

theorem Beside.pos_eq (h : K.Beside c c') : c'.pos = K.place c.pos :=
  Nat.eq_sub_of_add_eq h.pos

/-- The token that a lexeme is cut out for. -/
def cut (start : Cursor) (l : Lexeme) (doc : Option String) : Token :=
  ⟨l.kind, start.pos, l.after.pos, String.ofList (start.textTo l.after.pos), String.ofList l.value, doc⟩

theorem cut_of_same {l l' : Lexeme} {doc : Option String} (h : K.Beside c c') (hs : K.Same l l')
    (hl : c.Leads l.after) : cut c' l' doc = K.token (cut c l doc) := by
  have ht := h.textTo hs.after hl le_rfl hs.after.pos
  rw [cut, cut, token, hs.kind, hs.value, ht, h.pos_eq, hs.after.pos_eq]

open Token (next)

theorem next_inTags (c : Cursor) : next true c =
    let (start, doc) := Trivia.skip none .blank c.pos c.rest
    (cut start (Lexeme.inTags start) doc, (Lexeme.inTags start).after,
      match (Lexeme.inTags start).kind with | .openTag => true | .closeTag => false | _ => true) := by
  rfl

/-- A token that ends in the piece is the same one in the other text. -/
theorem beside_next {inTags : Bool} (h : K.Beside c c') (hk : K.Holds (next inTags c).2.1.rest) :
    (next inTags c').1 = K.token (next inTags c).1 ∧
      (next inTags c').2.2 = (next inTags c).2.2 ∧
      K.Beside (next inTags c).2.1 (next inTags c').2.1 := by
  cases inTags with
  | true =>
    rw [next_inTags] at hk ⊢
    rw [next_inTags]
    have hstart : K.Holds (Trivia.skip none .blank c.pos c.rest).1.rest :=
      hk.of_le (Lexeme.leads_inTags _).length_le
    have hblank : K.Alike c .blank .blank := .same rfl
    obtain ⟨hb, hdoc⟩ := beside_skip h hblank hstart
    have hs := same_inTags hb hk
    refine ⟨?_, ?_, hs.after⟩
    · simp only [hdoc]
      exact cut_of_same hb hs (Lexeme.leads_inTags _)
    · simp only [hs.kind]
  | false =>
    have hs := same_outsideTags h hk
    refine ⟨cut_of_same h hs (Lexeme.runs_outsideTags _).leads, ?_, hs.after⟩
    simp only [next, Bool.false_eq_true, if_false, hs.kind]

end Slice

end PhpAtlas
