import PhpAtlas.Proofs.Reading.Fits
import PhpAtlas.Grammar.Statement

/-! # Brackets

Brackets match if every closing one is of the kind that the last open one asks
for. The grammar sees to that everywhere but in the runs of tokens that it skips:
there it counts brackets of all kinds together.
-/

namespace PhpAtlas

namespace TokenKind

/-- The closing bracket that an opening one asks for. -/
def closer? : TokenKind → Option TokenKind
  | openParen => some closeParen
  | openBracket => some closeBracket
  | openBrace => some closeBrace
  | _ => none

def isCloser : TokenKind → Bool
  | closeParen | closeBracket | closeBrace => true
  | _ => false

def isBracket (kind : TokenKind) : Bool := kind.closer?.isSome || kind.isCloser

/-- Neither a bracket nor the end of the file nor a token that cannot be read. -/
def isPlain (kind : TokenKind) : Bool :=
  !kind.isBracket && kind != unknown && kind != endOfFile

/-- The tokens that an opaque expression ends before, as before closing brackets. -/
def isSeparator : TokenKind → Bool
  | semicolon | comma | closeTag => true
  | _ => false

/-- The closing brackets that are awaited after one more token, the next one first. -/
def await (kind : TokenKind) (awaited : List TokenKind) : Option (List TokenKind) :=
  match kind.closer? with
  | some closer => some (closer :: awaited)
  | none =>
      if !kind.isCloser then some awaited
      else if awaited.head? = some kind then some awaited.tail
      else none

/-- What a token does to the closing brackets that are awaited before it. -/
inductive Awaits (kind : TokenKind) : List TokenKind → List TokenKind → Prop
  | opening {σ : List TokenKind} {closer : TokenKind} (h : kind.closer? = some closer) :
      Awaits kind σ (closer :: σ)
  | closing {σ : List TokenKind} (h : kind.isCloser = true) : Awaits kind (kind :: σ) σ
  | other {σ : List TokenKind} (h : kind.isBracket = false) : Awaits kind σ σ

theorem await_eq_some_iff {kind : TokenKind} {σ τ : List TokenKind} :
    kind.await σ = some τ ↔ kind.Awaits σ τ := by
  constructor
  · intro h
    rw [await] at h
    split at h
    · next hc =>
      cases h
      exact .opening hc
    · next hc =>
      split at h
      · next hk =>
        cases h
        exact .other (by simpa [isBracket, hc] using hk)
      · next hk =>
        split at h
        · next hh =>
          cases h
          obtain ⟨σ, rfl⟩ := List.head?_eq_some_iff.mp hh
          exact .closing (by simpa using hk)
        · cases h
  · intro h
    cases h with
    | opening h => rw [await, h]
    | closing h => cases kind <;> first | rfl | cases h
    | other h => cases kind <;> first | rfl | cases h

end TokenKind

namespace Token

/-- The closing brackets that are awaited after some tokens; `none` where a bracket is closed by one of
another kind. -/
def awaited : List Token → List TokenKind → Option (List TokenKind)
  | [], waiting => some waiting
  | t :: ts, waiting => (t.kind.await waiting).bind (awaited ts)

/-- Every bracket is closed by one of its kind. -/
def WellBracketed (ts : List Token) : Prop := awaited ts [] = some []

instance (ts : List Token) : Decidable (WellBracketed ts) := inferInstanceAs (Decidable (_ = _))

variable {ts us : List Token} {σ τ ρ : List TokenKind}

theorem awaited_append (h : awaited ts σ = some τ) : awaited (ts ++ us) σ = awaited us τ := by
  induction ts generalizing σ with
  | nil =>
    cases h
    rfl
  | cons t ts ih =>
    obtain ⟨υ, ht, h⟩ := Option.bind_eq_some_iff.mp h
    rw [List.cons_append, awaited, ht]
    exact ih h

theorem awaited_cons {t : Token} : awaited (t :: ts) σ = some τ ↔
    ∃ υ, t.kind.Awaits σ υ ∧ awaited ts υ = some τ := by
  simp only [awaited, Option.bind_eq_some_iff, TokenKind.await_eq_some_iff]

theorem awaits_frame {kind : TokenKind} (h : kind.Awaits σ τ) : kind.Awaits (σ ++ ρ) (τ ++ ρ) := by
  cases h with
  | opening h => exact .opening h
  | closing h => exact .closing h
  | other h => exact .other h

/-- What is awaited besides does not matter. -/
theorem awaited_frame (h : awaited ts σ = some τ) : awaited ts (σ ++ ρ) = some (τ ++ ρ) := by
  induction ts generalizing σ with
  | nil =>
    cases h
    rfl
  | cons t ts ih =>
    obtain ⟨υ, ht, h⟩ := awaited_cons.mp h
    exact awaited_cons.mpr ⟨υ ++ ρ, awaits_frame ht, ih h⟩

theorem WellBracketed.awaited (h : WellBracketed ts) (σ : List TokenKind) :
    awaited ts σ = some σ :=
  awaited_frame h

end Token

namespace Grammar

/-! ## Runs that are skipped -/

/-- The run of an opaque expression with some brackets open, before what follows it. -/
inductive OpaqueRun : Nat → List Token → List Token → Prop
  | stop {t : Token} {rest : List Token} (ht : (t.kind.isSeparator || t.kind.isCloser) = true) :
      OpaqueRun 0 [] (t :: rest)
  | opening {depth : Nat} {t : Token} {run rest : List Token} (ht : t.kind.closer?.isSome = true)
      (h : OpaqueRun (depth + 1) run rest) : OpaqueRun depth (t :: run) rest
  | closing {depth : Nat} {t : Token} {run rest : List Token} (ht : t.kind.isCloser = true)
      (h : OpaqueRun depth run rest) : OpaqueRun (depth + 1) (t :: run) rest
  | inner {depth : Nat} {t : Token} {run rest : List Token} (ht : t.kind.isBracket = false)
      (he : t.kind ≠ .endOfFile) (hs : depth = 0 → t.kind.isSeparator = false)
      (h : OpaqueRun depth run rest) : OpaqueRun depth (t :: run) rest

/-- The run of a statement that is skipped, with some brackets open, before what follows it. A run
that is cut is over with the file. -/
inductive SkippedRun (isCut : Bool) : Nat → List Token → List Token → Prop
  | stop {t : Token} {rest : List Token} (hc : isCut = false)
      (ht : t.kind = .closeBrace ∨ t.kind = .closeTag) : SkippedRun isCut 0 [] (t :: rest)
  | semicolon {t : Token} {rest : List Token} (hc : isCut = false) (ht : t.kind = .semicolon) :
      SkippedRun isCut 0 [t] rest
  | block {t u : Token} {rest : List Token} (hc : isCut = false) (ht : t.kind = .closeBrace)
      (hu : continues u = false) : SkippedRun isCut 1 [t] (u :: rest)
  | cut {depth : Nat} {t : Token} (hc : isCut = true) (ht : t.kind = .endOfFile) :
      SkippedRun isCut depth [] [t]
  | opening {depth : Nat} {t : Token} {run rest : List Token} (ht : t.kind.closer?.isSome = true)
      (h : SkippedRun isCut (depth + 1) run rest) : SkippedRun isCut depth (t :: run) rest
  | closing {depth : Nat} {t : Token} {run rest : List Token}
      (ht : t.kind = .closeParen ∨ t.kind = .closeBracket)
      (h : SkippedRun isCut (depth - 1) run rest) : SkippedRun isCut depth (t :: run) rest
  | brace {depth : Nat} {t : Token} {run rest : List Token} (ht : t.kind = .closeBrace)
      (hd : 0 < depth) (hu : depth = 1 → (run ++ rest).head?.any continues = true)
      (h : SkippedRun isCut (depth - 1) run rest) : SkippedRun isCut depth (t :: run) rest
  | inner {depth : Nat} {t : Token} {run rest : List Token} (ht : t.kind.isBracket = false)
      (he : t.kind ≠ .endOfFile) (hs : depth = 0 → t.kind ≠ .semicolon ∧ t.kind ≠ .closeTag)
      (h : SkippedRun isCut depth run rest) : SkippedRun isCut depth (t :: run) rest

/-- A closure, an arrow function, a `match`, or a class after `new`. -/
def opensOpaque (t : Token) : Bool :=
  t.kind == .keyword .functionKw || t.kind == .keyword .staticKw || t.kind == .keyword .classKw ||
    t.isWord "fn" || t.isWord "match"

/-- A statement without a node, or the rules for conflicts between traits. -/
def opensSkipped (t : Token) : Bool :=
  t.kind == .keyword .constKw || t.kind == .keyword .staticKw || t.kind == .openBrace ||
    t.kind == .identifier && skippedWords.contains (lower t.text)

/-- A statement that is skipped up to the end of the file. -/
def Unfinished (ts : List Token) : Prop :=
  ∃ run rest, ts = run ++ rest ∧ run.head?.any opensSkipped = true ∧ SkippedRun true 0 run rest

/-- Awaited closing brackets, and the tokens ahead. -/
abbrev Place := List TokenKind × List Token

/-- From one place to another brackets match but in the runs that are skipped, which are listed. -/
inductive Covers : List (List Token) → Place → Place → Prop
  | done {p : Place} : Covers [] p p
  | plain {runs : List (List Token)} {σ : List TokenKind} {t : Token} {ts : List Token} {p : Place}
      (ht : t.kind.isPlain = true) (h : Covers runs (σ, ts) p) : Covers runs (σ, t :: ts) p
  | opening {runs : List (List Token)} {σ : List TokenKind} {t : Token} {ts : List Token}
      {p : Place} {closer : TokenKind} (ht : t.kind.closer? = some closer)
      (h : Covers runs (closer :: σ, ts) p) : Covers runs (σ, t :: ts) p
  | closing {runs : List (List Token)} {σ : List TokenKind} {t : Token} {ts : List Token}
      {p : Place} (ht : t.kind.isCloser = true) (h : Covers runs (σ, ts) p) :
      Covers runs (t.kind :: σ, t :: ts) p
  /-- A lone backslash stands between the name and the braces of a group of imports. -/
  | joint {runs : List (List Token)} {σ : List TokenKind} {t u : Token} {ts : List Token}
      {p : Place} (ht : t.kind = .unknown) (hu : u.kind = .openBrace)
      (h : Covers runs (σ, u :: ts) p) : Covers runs (σ, t :: u :: ts) p
  | opaqueRun {runs : List (List Token)} {σ : List TokenKind} {run rest : List Token} {p : Place}
      (hs : run.head?.any opensOpaque = true) (hr : OpaqueRun 0 run rest)
      (h : Covers runs (σ, rest) p) : Covers (run :: runs) (σ, run ++ rest) p
  | skippedRun {runs : List (List Token)} {σ : List TokenKind} {run rest : List Token} {p : Place}
      (hs : run.head?.any opensSkipped = true) (hr : SkippedRun false 0 run rest)
      (h : Covers runs (σ, rest) p) : Covers (run :: runs) (σ, run ++ rest) p

variable {t e : Token} {ts us run rest : List Token} {runs runs' : List (List Token)}
variable {p q r : Place} {σ τ : List TokenKind}

theorem Covers.trans (h : Covers runs p q) (h' : Covers runs' q r) :
    Covers (runs ++ runs') p r := by
  induction h with
  | done => exact h'
  | plain ht _ ih => exact .plain ht (ih h')
  | opening ht _ ih => exact .opening ht (ih h')
  | closing ht _ ih => exact .closing ht (ih h')
  | joint ht hu _ ih => exact .joint ht hu (ih h')
  | opaqueRun hs hr _ ih => exact .opaqueRun hs hr (ih h')
  | skippedRun hs hr _ ih => exact .skippedRun hs hr (ih h')

/-- If brackets match in the runs that are skipped they match everywhere. -/
theorem Covers.awaited (h : Covers runs p q) (hr : ∀ run ∈ runs, Token.WellBracketed run) :
    ∃ front, p.2 = front ++ q.2 ∧ Token.awaited front p.1 = some q.1 := by
  induction h with
  | done => exact ⟨[], rfl, rfl⟩
  | @plain _ _ t _ _ ht _ ih =>
    obtain ⟨front, hf, ha⟩ := ih hr
    have hb : t.kind.isBracket = false := by
      simp only [TokenKind.isPlain, Bool.and_eq_true, Bool.not_eq_true'] at ht
      exact ht.1.1
    exact ⟨t :: front, congrArg _ hf, Token.awaited_cons.mpr ⟨_, .other hb, ha⟩⟩
  | @opening _ _ t _ _ _ ht _ ih =>
    obtain ⟨front, hf, ha⟩ := ih hr
    exact ⟨t :: front, congrArg _ hf, Token.awaited_cons.mpr ⟨_, .opening ht, ha⟩⟩
  | @closing _ _ t _ _ ht _ ih =>
    obtain ⟨front, hf, ha⟩ := ih hr
    exact ⟨t :: front, congrArg _ hf, Token.awaited_cons.mpr ⟨_, .closing ht, ha⟩⟩
  | @joint _ _ t _ _ _ ht _ _ ih =>
    obtain ⟨front, hf, ha⟩ := ih hr
    refine ⟨t :: front, congrArg _ hf, ?_⟩
    rw [Token.awaited, ht]
    exact ha
  | @opaqueRun _ _ run _ _ _ _ _ ih | @skippedRun _ _ run _ _ _ _ _ ih =>
    obtain ⟨hrun, hr⟩ := List.forall_mem_cons.mp hr
    obtain ⟨front, hf, ha⟩ := ih hr
    refine ⟨run ++ front, ?_, ?_⟩
    · rw [List.append_assoc]
      exact congrArg _ hf
    · rw [Token.awaited_append (hrun.awaited _)]
      exact ha

/-! ## Ends of runs -/

theorem Covers.suffix (h : Covers runs p q) : q.2 <:+ p.2 := by
  induction h with
  | done => exact List.suffix_rfl
  | plain _ _ ih | opening _ _ ih | closing _ _ ih => exact ih.trans (List.suffix_cons _ _)
  | joint _ _ _ ih => exact ih.trans (List.suffix_cons _ _)
  | opaqueRun _ _ _ ih | skippedRun _ _ _ ih => exact ih.trans (List.suffix_append _ _)

theorem ne_endOfFile_of_opens {t : Token} (h : (opensOpaque t || opensSkipped t) = true) :
    t.kind ≠ .endOfFile := by
  intro he
  simp [opensOpaque, opensSkipped, Token.isWord, he] at h

/-- At the end of the file nothing more is covered. -/
theorem Covers.at_end (h : Covers runs (σ, [e]) (τ, rest)) (he : e.kind = .endOfFile) :
    σ = τ ∧ rest = [e] := by
  generalize hp : (σ, [e]) = p at h
  have hnone (run rest : List Token) (hs : ∃ t ∈ run.head?, (opensOpaque t || opensSkipped t) = true)
      (hr : [e] = run ++ rest) : False := by
    obtain ⟨t, ht, hs⟩ := hs
    obtain ⟨run, rfl⟩ := List.head?_eq_some_iff.mp ht
    obtain ⟨rfl, -⟩ := List.cons.inj hr
    exact ne_endOfFile_of_opens hs he
  cases h with
  | done =>
    cases hp
    exact ⟨rfl, rfl⟩
  | plain ht | opening ht | closing ht =>
    cases hp
    rw [he] at ht
    cases ht
  | joint => cases hp
  | @opaqueRun _ _ run rest _ hs =>
    obtain ⟨t, ht, hs⟩ := (Option.any_eq_true _ _).mp hs
    exact (hnone run rest ⟨t, ht, by simp [hs]⟩ (Prod.mk.inj hp).2).elim
  | @skippedRun _ _ run rest _ hs =>
    obtain ⟨t, ht, hs⟩ := (Option.any_eq_true _ _).mp hs
    exact (hnone run rest ⟨t, ht, by simp [hs]⟩ (Prod.mk.inj hp).2).elim

theorem OpaqueRun.stops {depth : Nat} (h : OpaqueRun depth run rest) :
    ∃ t ts, rest = t :: ts ∧ t.kind ≠ .endOfFile := by
  induction h with
  | @stop t ts ht =>
    refine ⟨t, ts, rfl, ?_⟩
    intro he
    rw [he] at ht
    cases ht
  | opening _ _ ih | closing _ _ ih | inner _ _ _ _ ih => exact ih

/-- Where the file is over after a run, the run has a semicolon or a brace at its end. -/
theorem SkippedRun.stops {depth : Nat} (h : SkippedRun false depth run rest) :
    (∃ t ts, rest = t :: ts ∧ t.kind ≠ .endOfFile) ∨
      ∃ front t, run = front ++ [t] ∧ t.kind ≠ .unknown := by
  induction h with
  | @stop t ts _ ht =>
    refine .inl ⟨t, ts, rfl, ?_⟩
    rcases ht with ht | ht <;> rw [ht] <;> nofun
  | @semicolon t _ _ ht => exact .inr ⟨[], t, rfl, by rw [ht]; nofun⟩
  | @block t _ _ _ ht => exact .inr ⟨[], t, rfl, by rw [ht]; nofun⟩
  | cut hc => cases hc
  | @opening _ t _ _ _ _ ih | @closing _ t _ _ _ _ ih | @brace _ t _ _ _ _ _ _ ih
  | @inner _ t _ _ _ _ _ _ ih =>
    apply ih.imp_right
    rintro ⟨front, u, rfl, hu⟩
    exact ⟨t :: front, u, rfl, hu⟩

theorem suffix_pair (hs : [t, e] <:+ run ++ rest) (hr : [e] <:+ rest) :
    [t, e] <:+ rest ∨ rest = [e] ∧ [t] <:+ run := by
  obtain ⟨front, rfl⟩ := hr
  cases front with
  | nil =>
    obtain ⟨before, hb⟩ := hs
    rw [List.append_cons, List.nil_append] at hb
    exact .inr ⟨rfl, before, List.append_cancel_right hb⟩
  | cons u front =>
    refine .inl (List.suffix_of_suffix_length_le hs (List.suffix_append _ _) ?_)
    simp

/-- What is covered up to the end of the file does not break off with a token that cannot be read. -/
theorem Covers.last_ne_unknown (h : Covers runs p q) (hq : q.2 = [e]) (he : e.kind = .endOfFile)
    (ht : [t, e] <:+ p.2) : t.kind ≠ .unknown := by
  have hcons {u : Token} {ts : List Token} (hu : u.kind ≠ .unknown)
      (ih : [t, e] <:+ ts → t.kind ≠ .unknown) (hs : [t, e] <:+ u :: ts) : t.kind ≠ .unknown := by
    rcases List.suffix_cons_iff.mp hs with hs | hs
    · obtain ⟨rfl, -⟩ := List.cons.inj hs
      exact hu
    · exact ih hs
  induction h with
  | done =>
    rw [hq] at ht
    exact absurd ht.length_le (by simp)
  | plain hk _ ih => exact hcons (by rintro h; rw [h] at hk; cases hk) (ih hq) ht
  | opening hk _ ih => exact hcons (by rintro h; rw [h] at hk; cases hk) (ih hq) ht
  | closing hk _ ih => exact hcons (by rintro h; rw [h] at hk; cases hk) (ih hq) ht
  | joint _ hu _ ih =>
    rcases List.suffix_cons_iff.mp ht with hs | hs
    · cases hs
      cases hu.symm.trans he
    · exact ih hq hs
  | opaqueRun _ hr hc ih =>
    rcases suffix_pair ht (hq ▸ hc.suffix) with hs | ⟨hs, -⟩
    · exact ih hq hs
    · obtain ⟨u, us, hu, hne⟩ := hr.stops
      rw [hs] at hu
      cases hu
      exact absurd he hne
  | skippedRun _ hr hc ih =>
    rcases suffix_pair ht (hq ▸ hc.suffix) with hs | ⟨hs, hl⟩
    · exact ih hq hs
    · rcases hr.stops with ⟨u, us, hu, hne⟩ | ⟨front, u, rfl, hne⟩
      · rw [hs] at hu
        cases hu
        exact absurd he hne
      · obtain ⟨before, hb⟩ := hl
        cases (List.append_inj' hb rfl).2
        exact hne

end Grammar
end PhpAtlas
