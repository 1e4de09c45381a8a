import Mathlib.Data.List.Pairwise
import PhpAtlas.Proofs.Token.Progress

/-! # Places of tokens

A place moves on by at least one byte for every character that is taken. So the
tokens of a source stand one after another, and each of them but the end of the
file covers some of the text.
-/

namespace PhpAtlas

/-! ## Places of lexemes -/

namespace Lexeme

/-- The end of the file is where it is found; anything else takes some of the text. -/
def Fills (start : Cursor) (l : Lexeme) : Prop :=
  if l.kind = .endOfFile then l.after = start else start.pos < l.after.pos

theorem fills_inTags (start : Cursor) : Fills start (inTags start) := by
  by_cases h : start.rest = []
  · simp [Fills, inTags, h]
  · rw [Fills, if_neg (inTags_ne_endOfFile h)]
    exact pos_lt_inTags h

theorem fills_outsideTags (start : Cursor) : Fills start (outsideTags start) := by
  by_cases h : start.rest = []
  · simp [Fills, outsideTags, h]
  · rw [Fills, if_neg (outsideTags_ne_endOfFile h)]
    exact pos_lt_outsideTags h

end Lexeme

/-! ## Runs of the scanner -/

namespace Token

/-- The next token is a lexeme at the place or after it. -/
theorem next_lexeme (inTags : Bool) (place : Cursor) : ∃ start l, place.pos ≤ start.pos ∧
    Lexeme.Fills start l ∧ (next inTags place).2.1 = l.after ∧
    (next inTags place).1.kind = l.kind ∧ (next inTags place).1.start = start.pos ∧
    (next inTags place).1.stop = l.after.pos := by
  cases inTags with
  | true => exact ⟨_, _, (Trivia.leads_skip ..).pos_le, Lexeme.fills_inTags _, rfl, rfl, rfl, rfl⟩
  | false => exact ⟨_, _, le_rfl, Lexeme.fills_outsideTags _, rfl, rfl, rfl, rfl⟩

/-- A token covers some of the text if and only if it is not the end of the file. -/
def Filled (t : Token) : Prop := if t.kind = .endOfFile then t.stop = t.start else t.start < t.stop

/-- The tokens stand one after another. -/
structure Laid (ts : List Token) : Prop where
  filled : ∀ t ∈ ts, t.Filled
  ordered : ts.Pairwise fun t u => t.stop ≤ u.start

variable {inTags : Bool} {place : Cursor} {t : Token} {ts us : List Token}

theorem Filled.start_le_stop (h : t.Filled) : t.start ≤ t.stop := by
  unfold Filled at h
  split at h
  · exact h.ge
  · exact h.le

theorem filled_next (inTags : Bool) (place : Cursor) : (next inTags place).1.Filled := by
  obtain ⟨start, l, -, hf, -, hk, hs, ht⟩ := next_lexeme inTags place
  unfold Lexeme.Fills at hf
  rw [Filled, hk, hs, ht]
  split
  · next h =>
    rw [if_pos h] at hf
    rw [hf]
  · next h => rwa [if_neg h] at hf

theorem pos_le_start_next (inTags : Bool) (place : Cursor) :
    place.pos ≤ (next inTags place).1.start := by
  obtain ⟨start, l, hp, -, -, -, hs, -⟩ := next_lexeme inTags place
  exact hs ▸ hp

theorem pos_after_next (inTags : Bool) (place : Cursor) :
    (next inTags place).2.1.pos = (next inTags place).1.stop := by
  obtain ⟨start, l, -, -, ha, -, -, ht⟩ := next_lexeme inTags place
  rw [ha, ht]

theorem Scans.pos_le_start (h : Scans inTags place ts) : ∀ t ∈ ts, place.pos ≤ t.start := by
  induction h with
  | last => exact List.forall_mem_singleton.mpr (pos_le_start_next _ _)
  | @step inTags place _ _ _ ih =>
    have hp : place.pos ≤ (next inTags place).2.1.pos := by
      rw [pos_after_next]
      exact (pos_le_start_next _ _).trans (filled_next _ _).start_le_stop
    exact List.forall_mem_cons.mpr ⟨pos_le_start_next _ _, fun t ht => hp.trans (ih t ht)⟩

theorem Scans.laid (h : Scans inTags place ts) : Laid ts := by
  induction h with
  | last => exact ⟨List.forall_mem_singleton.mpr (filled_next _ _), List.pairwise_singleton _ _⟩
  | step _ rest ih =>
    refine ⟨List.forall_mem_cons.mpr ⟨filled_next _ _, ih.filled⟩, ?_⟩
    refine List.pairwise_cons.mpr ⟨fun t ht => ?_, ih.ordered⟩
    rw [← pos_after_next]
    exact rest.pos_le_start t ht

theorem Laid.start_le (h : Laid (t :: ts)) : ∀ u ∈ t :: ts, t.start ≤ u.start := by
  refine List.forall_mem_cons.mpr ⟨le_rfl, fun u hu => ?_⟩
  have ht := (h.filled t List.mem_cons_self).start_le_stop
  exact ht.trans ((List.pairwise_cons.mp h.ordered).1 u hu)

theorem Laid.of_suffix (h : Laid ts) (hs : us <:+ ts) : Laid us :=
  ⟨fun t ht => h.filled t (hs.subset ht), h.ordered.sublist hs.sublist⟩

end Token

end PhpAtlas
