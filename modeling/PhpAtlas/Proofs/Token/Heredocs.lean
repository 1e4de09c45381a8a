import Mathlib.Data.Bool.AllAny
import Mathlib.Data.List.DropRight
import PhpAtlas.Proofs.Token.Words

/-! # Heredocs

Lines that are indented and put between a header and the closing label are a heredoc,
and it stands for the lines. Only a line on which the label closes the text is no line
of it; one that goes on behind the label, or is indented further, is.
-/

namespace PhpAtlas

open String (utf8Len)

variable {c : Char} {cs w label head indent line rest : List Char} {lines : List (List Char)}
variable {pos : Nat}

/-! ## Passing over characters -/

namespace Cursor

variable {p : Char → Bool}

theorem skipWhile_of_head (h : ∀ c ∈ cs.head?, p c = false) : skipWhile p pos cs = ⟨pos, cs⟩ := by
  cases cs with
  | nil => rfl
  | cons c cs => simp [skipWhile, h c rfl]

theorem skipWhile_append (hw : ∀ c ∈ w, p c = true) (h : ∀ c ∈ rest.head?, p c = false) :
    skipWhile p pos (w ++ rest) = ⟨pos + utf8Len w, rest⟩ := by
  induction w generalizing pos with
  | nil => exact skipWhile_of_head h
  | cons c w ih =>
    obtain ⟨hc, hw⟩ := List.forall_mem_cons.mp hw
    have hlen : utf8Len (c :: w) = utf8Len w + c.utf8Size := rfl
    rw [List.cons_append, skipWhile, if_pos hc, ih hw, hlen]
    congr 1
    omega

end Cursor

theorem isIndent_eq_false_of_isNameStart (h : isNameStart c = true) : isIndent c = false := by
  by_contra hc
  rw [Bool.not_eq_false, isIndent, Bool.or_eq_true, beq_iff_eq, beq_iff_eq] at hc
  rcases hc with rfl | rfl <;> exact absurd h (by decide)

theorem utf8Size_of_isIndent (h : isIndent c = true) : c.utf8Size = 1 := by
  rw [isIndent, Bool.or_eq_true, beq_iff_eq, beq_iff_eq] at h
  rcases h with rfl | rfl <;> rfl

theorem utf8Len_of_isIndent (h : ∀ c ∈ indent, isIndent c = true) : utf8Len indent = indent.length := by
  induction indent with
  | nil => rfl
  | cons c cs ih =>
    obtain ⟨hc, hcs⟩ := List.forall_mem_cons.mp h
    rw [String.utf8Len_cons, ih hcs, utf8Size_of_isIndent hc, List.length_cons]

namespace Heredoc

/-! ## What is written -/

/-- A name that may label a heredoc. -/
structure IsLabel (label : List Char) : Prop where
  start : ∃ c ∈ label.head?, isNameStart c = true
  parts : ∀ c ∈ label, isNamePart c = true

/-- The ways to write a label behind the arrows. -/
inductive Heads (label : List Char) : List Char → Prop
  | bare : Heads label label
  | quoted {q : Char} (hq : q = '"' ∨ q = '\'') : Heads label (q :: label ++ [q])

/-- The label stands on the line behind blanks, and no longer name does. -/
def Closing (label line : List Char) : Prop :=
  ∃ after, line.dropWhile isIndent = label ++ after ∧ ∀ c ∈ after.head?, isNamePart c = false

/-- The lines can be the body of a heredoc with the label, all of them behind the indentation. -/
structure Fits (label indent : List Char) (lines : List (List Char)) : Prop where
  isLabel : IsLabel label
  blank : ∀ c ∈ indent, isIndent c = true
  unbroken : ∀ line ∈ lines, '\n' ∉ line
  unclosed : ∀ line ∈ lines, ¬Closing label line
  last : ∀ line ∈ lines.getLast?, line.getLast? ≠ some '\r'

/-- The lines with the indentation in front of each and a newline behind each. -/
def indented (indent : List Char) (lines : List (List Char)) : List Char :=
  lines.flatMap fun line => indent ++ line ++ ['\n']

/-- A heredoc with the head, up to its closing label. -/
def written (head label indent : List Char) (lines : List (List Char)) : List Char :=
  '<' :: '<' :: '<' :: head ++ '\n' :: (indented indent lines ++ (indent ++ label))

theorem IsLabel.exists_cons (h : IsLabel label) :
    ∃ c cs, label = c :: cs ∧ isNameStart c = true := by
  obtain ⟨c, hc, hs⟩ := h.start
  obtain ⟨cs, rfl⟩ := List.head?_eq_some_iff.mp hc
  exact ⟨c, cs, rfl, hs⟩

theorem IsLabel.head_append (h : IsLabel label) (rest : List Char) :
    ∀ c ∈ (label ++ rest).head?, isIndent c = false := by
  obtain ⟨c, cs, rfl, hc⟩ := h.exists_cons
  simpa using isIndent_eq_false_of_isNameStart hc

theorem IsLabel.newline (h : IsLabel label) : '\n' ∉ label :=
  fun hn => absurd (h.parts _ hn) (by decide)

/-! ## The header -/

/-- The label ends at its quote, or where no name goes on. -/
theorem label_append {quote : Option Char} (hl : IsLabel label)
    (h : ∀ c ∈ rest.head?, isNamePart c = false) :
    Heredoc.label quote ⟨pos, label ++ rest⟩ = match quote with
      | none => .ok (label, ⟨pos + utf8Len label, rest⟩)
      | some q => if rest.head? = some q then .ok (label, ⟨pos + utf8Len label + 1, rest.drop 1⟩)
          else .error ⟨pos + utf8Len label, rest⟩ := by
  have htake : rest.takeWhile isNamePart = [] := by
    cases rest with
    | nil => rfl
    | cons c cs => simp [h c rfl]
  have hname : (label ++ rest).takeWhile isNamePart = label := by
    rw [List.takeWhile_append_of_pos hl.parts, htake, List.append_nil]
  cases quote <;> rw [Heredoc.label, Cursor.skipWhile_append hl.parts h, hname]

theorem openQuote_of_isNameStart (hc : isNameStart c = true) :
    openQuote ⟨pos, c :: cs⟩ = (none, ⟨pos, c :: cs⟩) := by
  unfold openQuote
  split
  · next he =>
    cases he
    exact absurd hc (by decide)
  · next he =>
    cases he
    exact absurd hc (by decide)
  · rfl

theorem header_append (hl : IsLabel label) (hh : Heads label head) :
    header pos (head ++ '\n' :: rest) = .ok (label, ⟨pos + utf8Len head, '\n' :: rest⟩) := by
  obtain ⟨c, cs, hcons, hc⟩ := hl.exists_cons
  have hstart (rest : List Char) : (label ++ rest).head?.any isNameStart = true := by
    simp [hcons, hc]
  cases hh with
  | bare =>
    have hquote : openQuote ⟨pos, label ++ '\n' :: rest⟩ = (none, ⟨pos, label ++ '\n' :: rest⟩) :=
      hcons ▸ openQuote_of_isNameStart hc
    have hnl : ∀ c ∈ ('\n' :: rest).head?, isNamePart c = false := by
      rintro c ⟨⟩
      decide
    simp only [header, Cursor.skipWhile_of_head (hl.head_append _), hquote, hstart, if_true,
      label_append hl hnl]
  | @quoted q hq =>
    have hskip : Cursor.skipWhile isIndent pos (q :: (label ++ q :: '\n' :: rest)) =
        ⟨pos, q :: (label ++ q :: '\n' :: rest)⟩ := by
      apply Cursor.skipWhile_of_head
      rintro c ⟨⟩
      rcases hq with rfl | rfl <;> decide
    have hquote : openQuote ⟨pos, q :: (label ++ q :: '\n' :: rest)⟩ =
        (some q, ⟨pos + 1, label ++ q :: '\n' :: rest⟩) := by
      rcases hq with rfl | rfl <;> rfl
    have hend : ∀ c ∈ (q :: '\n' :: rest).head?, isNamePart c = false := by
      rintro c ⟨⟩
      rcases hq with rfl | rfl <;> decide
    have hlen : pos + 1 + utf8Len label + 1 = pos + utf8Len (q :: label ++ [q]) := by
      have hsize : q.utf8Size = 1 := by rcases hq with rfl | rfl <;> rfl
      simp [String.utf8Len_append, String.utf8Len_cons, hsize]
      omega
    have happ : q :: label ++ [q] ++ '\n' :: rest = q :: (label ++ q :: '\n' :: rest) := by simp
    simp only [header, happ, hskip, hquote, hstart, if_true, label_append hl hend, List.head?_cons,
      List.drop_succ_cons, List.drop_zero, hlen]

/-! ## The closing line -/

theorem closes_iff {text : List Char} : closes label text = true ↔ Closing label text := by
  simp only [closes, Bool.and_eq_true, List.isPrefixOf_iff_prefix, Closing]
  constructor
  · rintro ⟨⟨after, ha⟩, hend⟩
    refine ⟨after, ha.symm, fun c hc => ?_⟩
    rw [← ha, List.drop_left, hc] at hend
    simpa using hend
  · rintro ⟨after, ha, hend⟩
    rw [ha, List.drop_left]
    refine ⟨List.prefix_append _ _, ?_⟩
    cases after with
    | nil => rfl
    | cons c cs => simp [hend c rfl]

instance (label : List Char) : DecidablePred (Closing label) :=
  fun _ => decidable_of_iff _ closes_iff

/-- What is behind a line does not make it the closing one. -/
theorem Closing.of_append (hl : IsLabel label) (h : Closing label (line ++ '\n' :: rest)) :
    Closing label line := by
  obtain ⟨after, ha, hend⟩ := h
  have hdrop : (line ++ '\n' :: rest).dropWhile isIndent = line.dropWhile isIndent ++ '\n' :: rest := by
    rw [List.dropWhile_append]
    split
    · next he => simp [List.isEmpty_iff.mp he, isIndent]
    · rfl
  rw [hdrop] at ha
  -- The label ends on the line, since it has no newline.
  rcases List.append_eq_append_iff.mp ha with ⟨w, hw, hrest⟩ | ⟨w, hw, hrest⟩
  · cases w with
    | nil => exact ⟨[], by simpa using hw.symm, nofun⟩
    | cons c w =>
      obtain ⟨rfl, -⟩ := List.cons.inj hrest
      exact absurd (hw ▸ List.mem_append_right _ List.mem_cons_self) hl.newline
  · refine ⟨w, hw, fun c hc => hend c ?_⟩
    rw [hrest, List.head?_append, hc]
    rfl

theorem closing_indent_iff (hi : ∀ c ∈ indent, isIndent c = true) :
    Closing label (indent ++ line) ↔ Closing label line := by
  rw [Closing, List.dropWhile_append_of_pos hi]
  rfl

theorem closingLine_inside (hn : '\n' ∉ w) : closingLine label false pos (w ++ '\n' :: cs) =
    closingLine label true (pos + utf8Len w + 1) cs := by
  induction w generalizing pos with
  | nil => rfl
  | cons c w ih =>
    obtain ⟨hc, hw⟩ := List.ne_and_not_mem_of_not_mem_cons hn
    have hlen : utf8Len (c :: w) = utf8Len w + c.utf8Size := rfl
    have hfresh : (c == '\n') = false := beq_false_of_ne (Ne.symm hc)
    have hpos : pos + c.utf8Size + utf8Len w + 1 = pos + utf8Len (c :: w) + 1 := by omega
    rw [List.cons_append, closingLine, hfresh, Bool.false_and, if_neg Bool.false_ne_true, ih hw, hpos]

theorem closingLine_line (hl : IsLabel label) (hn : '\n' ∉ w) (hc : ¬Closing label w) :
    closingLine label true pos (w ++ '\n' :: cs) =
      closingLine label true (pos + utf8Len w + 1) cs := by
  have hcloses : ¬closes label (w ++ '\n' :: cs) = true :=
    fun h => hc (Closing.of_append hl (closes_iff.mp h))
  cases w with
  | nil =>
    rw [List.nil_append] at hcloses ⊢
    rw [closingLine, Bool.true_and, if_neg hcloses]
    rfl
  | cons c w =>
    obtain ⟨hne, hw⟩ := List.ne_and_not_mem_of_not_mem_cons hn
    have hlen : utf8Len (c :: w) = utf8Len w + c.utf8Size := rfl
    have hfresh : (c == '\n') = false := beq_false_of_ne (Ne.symm hne)
    have hpos : pos + c.utf8Size + utf8Len w + 1 = pos + utf8Len (c :: w) + 1 := by omega
    rw [List.cons_append] at hcloses ⊢
    rw [closingLine, Bool.true_and, if_neg hcloses, hfresh, closingLine_inside hw, hpos]

/-- No line of the body is taken for the closing one. -/
theorem closingLine_indented (hl : IsLabel label) (hi : ∀ c ∈ indent, isIndent c = true)
    (hn : ∀ line ∈ lines, '\n' ∉ line) (hc : ∀ line ∈ lines, ¬Closing label line) :
    closingLine label true pos (indented indent lines ++ cs) =
      closingLine label true (pos + utf8Len (indented indent lines)) cs := by
  induction lines generalizing pos with
  | nil => rfl
  | cons line lines ih =>
    obtain ⟨hnl, hn⟩ := List.forall_mem_cons.mp hn
    obtain ⟨hcl, hc⟩ := List.forall_mem_cons.mp hc
    have hnl' : '\n' ∉ indent ++ line := by
      rw [List.mem_append, not_or]
      exact ⟨fun h => absurd (hi _ h) (by decide), hnl⟩
    have happ : indented indent (line :: lines) ++ cs =
        (indent ++ line) ++ '\n' :: (indented indent lines ++ cs) := by simp [indented]
    have hlen : utf8Len (indented indent (line :: lines)) =
        utf8Len (indent ++ line) + 1 + utf8Len (indented indent lines) := by
      have hsize : ('\n').utf8Size = 1 := rfl
      simp [indented, String.utf8Len_append, String.utf8Len_cons, hsize]
      omega
    rw [happ, closingLine_line hl hnl' (mt (closing_indent_iff hi).mp hcl), ih hn hc, hlen]
    congr 1
    omega

theorem closingLine_closing (hl : IsLabel label) (hi : ∀ c ∈ indent, isIndent c = true)
    (hr : ∀ c ∈ rest.head?, isNamePart c = false) :
    closingLine label true pos (indent ++ (label ++ rest)) =
      some ⟨pos, indent ++ (label ++ rest)⟩ := by
  have hclosing : Closing label (indent ++ (label ++ rest)) := by
    refine (closing_indent_iff hi).mpr ⟨rest, ?_, hr⟩
    obtain ⟨c, cs, rfl, hc⟩ := hl.exists_cons
    simp [isIndent_eq_false_of_isNameStart hc]
  have hcloses := closes_iff.mpr hclosing
  obtain ⟨c, cs, hcons⟩ : ∃ c cs, indent ++ (label ++ rest) = c :: cs := by
    obtain ⟨c, cs, rfl, -⟩ := hl.exists_cons
    exact List.exists_cons_of_ne_nil (by simp)
  rw [hcons] at hcloses ⊢
  rw [closingLine, Bool.true_and, if_pos hcloses]

/-! ## The body -/

theorem indented_eq (h : lines ≠ []) : indented indent lines =
    ['\n'].intercalate (lines.map (indent ++ ·)) ++ ['\n'] := by
  induction lines with
  | nil => contradiction
  | cons line lines ih =>
    cases lines with
    | nil => simp [indented]
    | cons line' lines =>
      have hi := ih (List.cons_ne_nil _ _)
      simp only [indented, List.flatMap_cons, List.map_cons, List.intercalate_cons_cons,
        List.append_assoc] at hi ⊢
      rw [hi]

theorem getLast?_intercalate (hi : ∀ c ∈ indent, isIndent c = true)
    (hl : ∀ line ∈ lines.getLast?, line.getLast? ≠ some '\r') :
    (['\n'].intercalate (lines.map (indent ++ ·))).getLast? ≠ some '\r' := by
  induction lines with
  | nil => nofun
  | cons line lines ih =>
    cases lines with
    | nil =>
      have hindent : indent.getLast? ≠ some '\r' :=
        fun h => absurd (hi _ (List.mem_of_getLast? h)) (by decide)
      have hline : line.getLast? ≠ some '\r' := hl line rfl
      rw [List.map_singleton, List.intercalate_singleton, List.getLast?_append]
      cases hline' : line.getLast? with
      | none => exact hindent
      | some c => rwa [hline'] at hline
    | cons line' lines =>
      have hlast := ih (by simpa using hl)
      rw [List.map_cons, List.map_cons, List.intercalate_cons_cons, List.getLast?_append]
      rw [List.map_cons] at hlast
      cases hrest : (['\n'].intercalate ((indent ++ line') :: lines.map (indent ++ ·))).getLast? with
      | none => simp
      | some c => rwa [hrest] at hlast

/-- The body are the lines without the newline in front of the closing one. -/
theorem body_indented (hi : ∀ c ∈ indent, isIndent c = true)
    (hl : ∀ line ∈ lines.getLast?, line.getLast? ≠ some '\r') :
    body ⟨pos, indented indent lines ++ cs⟩ (pos + utf8Len (indented indent lines)) =
      ['\n'].intercalate (lines.map (indent ++ ·)) := by
  have htext : Cursor.textTo ⟨pos, indented indent lines ++ cs⟩
      (pos + utf8Len (indented indent lines) - 1) = ['\n'].intercalate (lines.map (indent ++ ·)) := by
    by_cases hnil : lines = []
    · have hbytes : pos - 1 - pos = 0 := by omega
      subst hnil
      simp [indented, Cursor.textTo, hbytes, takeBytes, takeBytes?, takeBytesOnto]
    · have hsize : ('\n').utf8Size = 1 := rfl
      rw [indented_eq hnil, List.append_assoc]
      simp [String.utf8Len_append, String.utf8Len_cons, hsize, ← Nat.add_assoc]
  rw [body, htext]
  refine List.rdropWhile_eq_self_iff.mpr fun hne => ?_
  have hlast := getLast?_intercalate hi hl
  rw [List.getLast?_eq_some_getLast hne] at hlast
  simpa using hlast

theorem outdent_line (hn : '\n' ∉ line) (n : Nat) :
    outdent n 0 (line ++ cs) = line ++ outdent n 0 cs := by
  induction line with
  | nil => rfl
  | cons c line ih =>
    obtain ⟨hc, hn⟩ := List.ne_and_not_mem_of_not_mem_cons hn
    simp [outdent, Ne.symm hc, ih hn]

theorem outdent_indent (hi : ∀ c ∈ indent, isIndent c = true) (n : Nat) :
    outdent n indent.length (indent ++ cs) = outdent n 0 cs := by
  induction indent with
  | nil => rfl
  | cons c indent ih =>
    obtain ⟨hc, hi⟩ := List.forall_mem_cons.mp hi
    have hne : c ≠ '\n' := by
      rintro rfl
      exact absurd hc (by decide)
    simp [outdent, hne, hc, ih hi]

/-- Every line loses its indentation and no blank more. -/
theorem outdent_intercalate (hi : ∀ c ∈ indent, isIndent c = true)
    (hn : ∀ line ∈ lines, '\n' ∉ line) :
    outdent indent.length indent.length (['\n'].intercalate (lines.map (indent ++ ·))) =
      ['\n'].intercalate lines := by
  induction lines with
  | nil => rfl
  | cons line lines ih =>
    obtain ⟨hline, hn⟩ := List.forall_mem_cons.mp hn
    cases lines with
    | nil =>
      have houtdent : outdent indent.length 0 (line ++ []) = line ++ outdent indent.length 0 [] :=
        outdent_line hline indent.length
      simpa [outdent_indent hi, outdent] using houtdent
    | cons line' lines =>
      have hi' := ih hn
      rw [List.map_cons] at hi' ⊢
      rw [List.map_cons, List.intercalate_cons_cons, List.intercalate_cons_cons, List.append_assoc,
        List.append_assoc, outdent_indent hi, outdent_line hline, List.singleton_append, outdent,
        if_pos (by decide), hi']
      simp

/-! ## Reading heredocs -/

theorem text_indented (hf : Fits label indent lines) (hr : ∀ c ∈ rest.head?, isNamePart c = false) :
    text label ⟨pos, '\n' :: (indented indent lines ++ (indent ++ (label ++ rest)))⟩ =
      .ok (['\n'].intercalate lines,
        ⟨pos + utf8Len ('\n' :: (indented indent lines ++ (indent ++ label))), rest⟩) := by
  have hnewline : Cursor.skipWhile (· != '\n') pos
      ('\n' :: (indented indent lines ++ (indent ++ (label ++ rest)))) =
      ⟨pos, '\n' :: (indented indent lines ++ (indent ++ (label ++ rest)))⟩ := rfl
  have hclosing : closingLine label true (pos + 1) (indented indent lines ++ (indent ++ (label ++ rest))) =
      some ⟨pos + 1 + utf8Len (indented indent lines), indent ++ (label ++ rest)⟩ := by
    rw [closingLine_indented hf.isLabel hf.blank hf.unbroken hf.unclosed,
      closingLine_closing hf.isLabel hf.blank hr]
  simp only [text, hnewline, List.isEmpty_cons, Bool.false_eq_true, if_false, List.drop_succ_cons,
    List.drop_zero, hclosing, Cursor.skipWhile_append hf.blank (hf.isLabel.head_append rest),
    Nat.add_sub_cancel_left, Cursor.skipWhile_append hf.isLabel.parts hr,
    body_indented hf.blank hf.last, utf8Len_of_isIndent hf.blank,
    outdent_intercalate hf.blank hf.unbroken]
  have hsize : ('\n').utf8Size = 1 := rfl
  have hindent := utf8Len_of_isIndent hf.blank
  simp [String.utf8Len_append, String.utf8Len_cons, hsize]
  omega

theorem read_written (hf : Fits label indent lines) (hh : Heads label head)
    (hr : ∀ c ∈ rest.head?, isNamePart c = false) (pos : Nat) :
    read pos (head ++ '\n' :: (indented indent lines ++ (indent ++ (label ++ rest)))) =
      .ok (['\n'].intercalate lines,
        ⟨pos + utf8Len (head ++ '\n' :: (indented indent lines ++ (indent ++ label))), rest⟩) := by
  rw [read, header_append hf.isLabel hh]
  dsimp only
  rw [text_indented hf hr, String.utf8Len_append, Nat.add_assoc]

end Heredoc

namespace Token

/-- Inside of tags, the header of a heredoc with the indented lines and the closing label is one string up
to the end of the label, with the lines as its value. -/
theorem next_heredoc (hf : Heredoc.Fits label indent lines) (hh : Heredoc.Heads label head)
    (hr : ∀ c ∈ rest.head?, isNamePart c = false) (pos : Nat) :
    let literal := Heredoc.written head label indent lines
    next true ⟨pos, literal ++ rest⟩ =
      (⟨.string, pos, pos + utf8Len literal, String.ofList literal,
        String.ofList (['\n'].intercalate lines), none⟩, ⟨pos + utf8Len literal, rest⟩, true) := by
  intro literal
  have hl : Lexeme.inTags ⟨pos, literal ++ rest⟩ =
      ⟨.string, ['\n'].intercalate lines, ⟨pos + utf8Len literal, rest⟩⟩ := by
    have hread := Heredoc.read_written hf hh hr (pos + 3)
    have hlen : pos + 3 + utf8Len (head ++ '\n' :: (Heredoc.indented indent lines ++ (indent ++ label))) =
        pos + utf8Len literal := by
      have hsize : ('<').utf8Size = 1 := rfl
      simp [literal, Heredoc.written, String.utf8Len_append, String.utf8Len_cons, hsize]
      omega
    rw [hlen] at hread
    simp [literal, Heredoc.written, Lexeme.inTags, hread]
  exact next_written (by decide) (by decide) (by decide) (by decide) (by decide) hl

/-- A line with more blanks in front, an empty one, and one with a longer name than the label. -/
theorem next_heredoc_longerName :
    let label := "END".toList
    let lines := ["    $a".toList, [], " ENDS".toList]
    let literal := Heredoc.written ('"' :: label ++ ['"']) label "  ".toList lines
    Heredoc.Fits label "  ".toList lines ∧ Heredoc.Heads label ('"' :: label ++ ['"']) ∧
      (∀ c ∈ ([';'] : List Char).head?, isNamePart c = false) ∧
      next true ⟨0, literal ++ [';']⟩ =
        (⟨.string, 0, utf8Len literal, String.ofList literal, "    $a\n\n ENDS", none⟩,
          ⟨utf8Len literal, [';']⟩, true) := by
  intro label lines literal
  have hf : Heredoc.Fits label "  ".toList lines :=
    ⟨⟨⟨'E', rfl, by decide⟩, List.all_iff_forall_prop.mp (by decide)⟩, List.all_iff_forall_prop.mp (by decide), by decide,
      by decide, by simp [lines]⟩
  have hr : ∀ c ∈ ([';'] : List Char).head?, isNamePart c = false := by
    rintro c ⟨⟩
    decide
  have hvalue : String.ofList (['\n'].intercalate lines) = "    $a\n\n ENDS" := by decide
  have hnext : next true ⟨0, literal ++ [';']⟩ = _ := next_heredoc hf (.quoted (.inl rfl)) hr 0
  rw [hvalue, Nat.zero_add] at hnext
  exact ⟨hf, .quoted (.inl rfl), hr, hnext⟩

end Token

end PhpAtlas
