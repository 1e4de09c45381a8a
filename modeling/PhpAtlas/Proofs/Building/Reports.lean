import PhpAtlas.Proofs.Building.Spans
import PhpAtlas.Proofs.Hint.Syntax

/-! # Places of reports

Only the place of the last report is remembered. That is enough to have one
report for a place and all of them in order: rules never go back to a token
before the current one, and a token that they look at ahead gets no report.
-/

namespace PhpAtlas

/-- Each diagnostic starts behind the start of those before it. -/
def InOrder (ds : List Diagnostic) : Prop := ds.Pairwise fun d e => d.start < e.start

/-- What is wrong with a text as a type. -/
def TypeHint.faults (text : List Char) : List Diagnostic :=
  match parse text with
  | .ok _ => []
  | .error ds => ds

namespace Grammar

variable {s s' : State} {fault : SyntaxFault} {text : List Char}

/-- No token ahead starts before the current one. -/
def State.Onward (s : State) : Prop := s.stream.tokens.Pairwise fun t u => t.start ≤ u.start

theorem State.Onward.later (h : s.Onward) (hl : Later s s') : s'.Onward := h.sublist hl.sublist

theorem State.Onward.start_le (h : s.Onward) (hl : Later s s') :
    s.stream.current.start ≤ s'.stream.current.start := by
  have hm : s'.stream.current ∈ s.stream.tokens := hl.subset List.mem_cons_self
  rcases List.mem_cons.mp hm with he | hm
  · rw [he]
  · exact (List.pairwise_cons.mp h).1 _ hm

theorem onward_of_laid {ts : List Token} (h : Token.Laid ts) :
    ts.Pairwise fun t u => t.start ≤ u.start :=
  h.ordered.imp_of_mem fun ht _ hle => (h.filled _ ht).start_le_stop.trans hle

/-- The token before the first one starts where the text does. -/
theorem onward_ofTokens {ts : List Token} (h : Token.Laid ts) :
    State.Onward { stream := .ofTokens ts } :=
  List.pairwise_cons.mpr ⟨fun _ _ => Nat.zero_le _, onward_of_laid h⟩

/-- The reports are in order, and no later than the last one, which is no later than the current
token. -/
structure State.Reported (s : State) : Prop where
  onward : s.Onward
  inOrder : InOrder s.diagnostics.toList
  upTo : ∀ d ∈ s.diagnostics.toList, ∃ p, s.lastFault = some p ∧ d.start ≤ p
  passed : ∀ p, s.lastFault = some p → p ≤ s.stream.current.start

namespace State.Reported

/-- At the place of the last report there is no other one, so a new one is behind all of them. -/
theorem report (h : s.Reported) (hr : (report fault).run s = some ((), s')) : s'.Reported := by
  cases hr
  dsimp only
  split
  · exact h
  · next hf =>
    have hbehind : ∀ d ∈ s.diagnostics.toList, d.start < s.stream.current.start := by
      intro d hd
      obtain ⟨p, hp, hle⟩ := h.upTo d hd
      have hne : p ≠ s.stream.current.start := fun he => hf (he ▸ hp)
      exact hle.trans_lt ((h.passed p hp).lt_of_ne hne)
    constructor
    · exact h.onward
    · rw [Array.toList_push]
      refine List.pairwise_append.mpr ⟨h.inOrder, List.pairwise_singleton _ _, fun d hd e he => ?_⟩
      rw [List.mem_singleton.mp he]
      exact hbehind d hd
    · rw [Array.toList_push]
      intro d hd
      rcases List.mem_append.mp hd with hd | hd
      · exact ⟨_, rfl, (hbehind d hd).le⟩
      · rw [List.mem_singleton.mp hd]
        exact ⟨_, rfl, le_rfl⟩
    · rintro p ⟨⟩
      exact le_rfl

theorem goOn (h : s.Reported) (hl : Later s s') (hd : s'.diagnostics = s.diagnostics)
    (hf : s'.lastFault = s.lastFault) : s'.Reported where
  onward := h.onward.later hl
  inOrder := hd ▸ h.inOrder
  upTo := hd ▸ hf ▸ h.upTo
  passed p hp := (h.passed p (hf ▸ hp)).trans (h.onward.start_le hl)

end State.Reported

/-- Whatever has been read of a text, the reports are in order. -/
theorem Reached.reported (h : Reached text s) : s.Reported := by
  have hstart {ts : List Token} (hts : Token.Laid ts) :
      State.Reported { stream := .ofTokens ts } :=
    ⟨onward_ofTokens hts, .nil, nofun, nofun⟩
  induction h with
  | source => exact hstart (Token.scans_ofSource text).laid
  | type => exact hstart (scans_ofTagged text).laid
  | report _ hr ih => exact ih.report hr
  | goOn _ hl hd hf ih => exact ih.goOn hl hd hf

end Grammar

open Grammar

theorem Parsed.inOrder_diagnostics (source : List Char) : InOrder (ofSource source).diagnostics := by
  obtain ⟨statements, s, hw, -, he⟩ := works_ofSource source
  have hfirst : Reached source (.atFirst source) :=
    Reached.source.goOn (TokenStream.tokens_next_suffix _) rfl rfl
  rw [he]
  exact (hw.reached hfirst).reported.inOrder

theorem TypeHint.inOrder_faults (text : List Char) : InOrder (faults text) := by
  obtain ⟨r, s, hr, -⟩ := exists_run text
  have hs : s.Reported := (forms_loneHint.reached .type hr).reported
  unfold faults parse
  simp only [hr]
  cases r with
  | none => exact hs.inOrder
  | some found =>
    dsimp only
    by_cases hd : s.diagnostics.isEmpty
    · rw [if_pos hd]
      exact .nil
    · rw [if_neg hd]
      exact hs.inOrder

/-- There is at most one diagnostic for a place, and diagnostics come in the order of the text, for
sources as for types. -/
theorem diagnostics_in_order :
    (∀ source, (Parsed.ofSource source).diagnostics.Pairwise fun d e => d.start < e.start) ∧
    ∀ text, (TypeHint.faults text).Pairwise fun d e => d.start < e.start :=
  ⟨Parsed.inOrder_diagnostics, TypeHint.inOrder_faults⟩

end PhpAtlas
