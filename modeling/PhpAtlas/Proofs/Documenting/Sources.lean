import PhpAtlas.Proofs.Building.Statements
import PhpAtlas.Proofs.Documenting.Declarations
import PhpAtlas.Proofs.Token.Comments

/-! # The comments of a source

A declaration of a source has the last documentation comment in the trivia before
its first token. Where there is none, it has no comment, or one farther in front
that no semicolon and no brace separates from it.
-/

namespace PhpAtlas

open String (utf8Len)

namespace Token

variable {source : List Char} {before behind : List Token} {t : Token} {j k start : Nat}
variable {doc : Option String}

/-! ## The tokens of a source in order -/

theorem endsDoc_eq_true_iff {kind : TokenKind} :
    kind.endsDoc = true ↔ kind ∈ [.semicolon, .openBrace, .closeBrace] := by
  cases kind <;> simp [TokenKind.endsDoc]

theorem eq_nth_of_getElem? (h : (ofSource source)[k]? = some t) : t = nth source k := by
  obtain ⟨n, -, -, hof⟩ := scanning_tiles source
  rw [hof, List.getElem?_map] at h
  obtain ⟨j, hj, rfl⟩ := Option.map_eq_some_iff.mp h
  rw [(List.getElem?_eq_some_iff.mp hj).2.symm, List.getElem_range]

theorem exists_nth_of_mem_before (h : ofSource source = before ++ behind) (ht : t ∈ before) :
    ∃ k < before.length, t = nth source k := by
  obtain ⟨k, hk⟩ := List.mem_iff_getElem?.mp ht
  have hlt : k < before.length := (List.getElem?_eq_some_iff.mp hk).1
  exact ⟨k, hlt, eq_nth_of_getElem? (by rw [h, List.getElem?_append_left hlt, hk])⟩

theorem exists_nth_of_mem_behind (h : ofSource source = before ++ behind) (ht : t ∈ behind) :
    ∃ k ≥ before.length, t = nth source k := by
  obtain ⟨k, hk⟩ := List.mem_iff_getElem?.mp ht
  have hle : before.length ≤ before.length + k := Nat.le_add_right _ _
  refine ⟨before.length + k, hle, eq_nth_of_getElem? ?_⟩
  rw [h, List.getElem?_append_right hle, Nat.add_sub_cancel_left, hk]

theorem eq_nth_of_ofSource (h : ofSource source = before ++ t :: behind) :
    t = nth source before.length := by
  apply eq_nth_of_getElem?
  rw [h, List.getElem?_append_right le_rfl, Nat.sub_self, List.getElem?_cons_zero]

theorem kind_ne_endOfFile_of_le (h : (nth source k).kind ≠ .endOfFile) (hj : j ≤ k) :
    (nth source j).kind ≠ .endOfFile := by
  obtain ⟨n, -, htiles, -⟩ := scanning_tiles source
  exact fun he => h ((htiles.endOfFile k).mpr (((htiles.endOfFile j).mp he).trans hj))

theorem stop_nth_le (h : j < k) : (nth source j).stop ≤ (stateAfter source k).2.pos := by
  induction k, h using Nat.le_induction with
  | base => exact (pos_after_next _ _).ge
  | succ k _ ih =>
    have hf : (nth source k).Filled := filled_next _ _
    calc (nth source j).stop
      _ ≤ (stateAfter source k).2.pos := ih
      _ ≤ (nth source k).start := pos_le_start_next _ _
      _ ≤ (nth source k).stop := hf.start_le_stop
      _ = (stateAfter source (k + 1)).2.pos := (pos_after_next _ _).symm

theorem start_nth_le (h : j ≤ k) : (nth source j).start ≤ (nth source k).start := by
  rcases h.eq_or_lt with rfl | h
  · exact le_rfl
  · have hf : (nth source j).Filled := filled_next _ _
    exact (hf.start_le_stop.trans (stop_nth_le h)).trans (pos_le_start_next _ _)

/-! ## Comments and where they stand -/

/-- The comment `c` stands in the source before `start`, with no semicolon and no brace between. -/
def Reaches (source : List Char) (c : String) (start : Nat) : Prop :=
  ∃ before behind, source = before ++ c.toList ++ behind ∧
    Trivia.DocComment c.toList behind ∧ utf8Len (before ++ c.toList) ≤ start ∧
    ∀ t ∈ ofSource source, utf8Len (before ++ c.toList) ≤ t.start → t.start < start →
      t.kind ∉ [.semicolon, .openBrace, .closeBrace]

/-- A declaration that starts at `start` has the last comment in the trivia before its first token,
or else one that reaches it. -/
structure Attached (source : List Char) (start : Nat) (doc : Option String) : Prop where
  own : ∃ k, nth source k ∈ ofSource source ∧ (nth source k).kind ≠ .endOfFile ∧
    (nth source k).start = start ∧
    (Trivia.HasDoc (gapText source k) (textAt source k) →
      ∃ c, Trivia.LastDoc (gapText source k) c (textAt source k) ∧ doc = some (String.ofList c))
  reaches : ∀ c, doc = some c → Reaches source c start

theorem reaches_of_carried {passed ahead : List Token} {c : String}
    (hts : ofSource source = passed ++ t :: ahead) (hk : t.kind ≠ .endOfFile)
    (hc : Carried c (passed ++ [t])) : Reaches source c t.start := by
  obtain ⟨before, u, behind, hp, hd, hends⟩ := hc
  have hof : ofSource source = before ++ u :: (behind ++ ahead) := by
    rw [hts, List.append_cons, hp, List.append_assoc, List.cons_append]
  have hle : before.length ≤ passed.length := by
    have hlen := congrArg List.length hp
    simp only [List.length_append, List.length_cons, List.length_nil] at hlen
    omega
  have ht : t = nth source passed.length := eq_nth_of_ofSource hts
  have hu : u = nth source before.length := eq_nth_of_ofSource hof
  have hku : (nth source before.length).kind ≠ .endOfFile := kind_ne_endOfFile_of_le (ht ▸ hk) hle
  obtain ⟨front, rest, hs, hcomment, hfront, hbefore⟩ := doc_nth_place hku (hu ▸ hd)
  refine ⟨front, rest, hs, hcomment, ?_, fun v hv hlt hgt => ?_⟩
  · rw [ht]
    exact hbefore.trans (start_nth_le hle)
  rw [← endsDoc_eq_true_iff, Bool.not_eq_true]
  have hcases : v ∈ before ∨ v ∈ u :: behind ∨ v ∈ t :: ahead := by
    rw [hof, ← List.cons_append] at hv
    simp only [List.mem_append] at hv
    exact hv.imp_right (Or.imp_right (List.mem_cons_of_mem t))
  rcases hcases with hv | hv | hv
  · -- A token in front of the comment's token ends before the comment.
    obtain ⟨j, hj, rfl⟩ := exists_nth_of_mem_before hof hv
    have hf : (nth source j).Filled := filled_next _ _
    have hstop := hf.start_le_stop.trans (stop_nth_le hj)
    have hlong : 4 < utf8Len c.toList := hcomment.long
    rw [String.utf8Len_append] at hlt
    omega
  · exact hends v hv
  · -- A token from the first of the declaration on does not start before it.
    obtain ⟨j, hj, rfl⟩ := exists_nth_of_mem_behind hts hv
    have hge : t.start ≤ (nth source j).start := ht ▸ start_nth_le hj
    omega

theorem Documents.attached (h : Documents (ofSource source) start doc) :
    Attached source start doc := by
  obtain ⟨passed, t, ahead, hts, rfl, hk, hown, hcarried⟩ := h
  have ht : t = nth source passed.length := eq_nth_of_ofSource hts
  have hmem : t ∈ ofSource source := hts ▸ List.mem_append_right _ List.mem_cons_self
  constructor
  case own =>
    refine ⟨passed.length, ht ▸ hmem, ht ▸ hk, ht ▸ rfl, fun hdoc => ?_⟩
    obtain ⟨c, hlast, hd⟩ := exists_doc_nth (ht ▸ hk) hdoc
    exact ⟨c, hlast, hown _ (ht ▸ hd)⟩
  case reaches => exact fun c hc => reaches_of_carried hts hk (hcarried c hc)

end Token

/-! ## Whole sources -/

namespace Grammar

theorem resting_atFirst (source : List Char) :
    (State.atFirst source).Resting (Token.ofSource source) where
  waits := by
    refine ⟨[], (tokens_atFirst source).symm, fun c hc => ?_⟩
    obtain ⟨t, us, hts⟩ := List.exists_cons_of_ne_nil (Token.scans_ofSource source).closed.ne_nil
    obtain ⟨ht, hc | hc⟩ := TokenStream.doc_next hts hc
    · have hcurrent : (State.atFirst source).stream.current = t :=
        (List.cons.inj ((tokens_atFirst source).trans hts)).1
      exact hcurrent ▸ Token.carried_last hc ht
    · cases hc
  documented _ _ _ hn := by cases hn

theorem fresh_atFirst (source : List Char) : (State.atFirst source).stream.Fresh :=
  TokenStream.fresh_next_of_ahead (Token.scans_ofSource source).closed.ne_nil

end Grammar

open Grammar

namespace Parsed

variable {source : List Char} {i : NodeId} {n : Node} {doc : Option String}

/-- The declarations of a source have the comments in front of them, whatever is wrong with the
source. -/
theorem ofSource_attached (hn : (ofSource source).arena.node? i = some n)
    (hd : n.payload.doc? = some doc) : Token.Attached source n.start doc := by
  obtain ⟨statements, s, hlist, -, he⟩ := run_statements source
  have hts : Token.Closed (Token.ofSource source) := (Token.scans_ofSource source).closed
  have hstatement := (attends_rules hts (Grammar.bound source.length)).statement
  obtain ⟨hs, -⟩ := (growing_attends _).statementList hstatement _ (resting_atFirst source)
    (fresh_atFirst source) _ _ hlist
  rw [he] at hn
  rcases Arena.node?_added_cases hn with ⟨hp, -⟩ | ⟨m, hm, hp, hstart⟩
  · rw [hp] at hd
    cases hd
  · exact hstart ▸ (hs.documented i m doc hm (hp ▸ hd)).attached

/-- A class with two comments and an attribute in front of it. -/
theorem ofSource_attached_class : ∃ source i n,
    source = "<?php /** a */ /** b */ #[A] final class C \x7b /** x */ var $x; \x7d".toList ∧
      ((ofSource source).arena.node? i = some n ∧ n.payload.doc? = some (some "/** b */")) ∧
      n.start = 29 ∧ Token.Attached source n.start (some "/** b */") := by
  obtain ⟨source, hsource⟩ : ∃ source,
    source = "<?php /** a */ /** b */ #[A] final class C \x7b /** x */ var $x; \x7d".toList := ⟨_, rfl⟩
  have h : ((ofSource source).arena.node? 2).map (fun n => (n.payload.doc?, n.start)) =
      some (some (some "/** b */"), 29) := hsource ▸ by decide +kernel
  obtain ⟨n, hn, heq⟩ := Option.map_eq_some_iff.mp h
  obtain ⟨hd, hstart⟩ := Prod.mk.inj heq
  exact ⟨source, 2, n, hsource, ⟨hn, hd⟩, hstart, ofSource_attached hn hd⟩

end Parsed

end PhpAtlas
