import PhpAtlas.Grammar.Declaration

/-! # Rules that only look

Some rules find something out about the tokens and leave the state as it is. A
rule that goes on from there runs on what they have found.
-/

namespace PhpAtlas.Grammar

variable {α β : Type} {s s'' : State} {m : Parse α} {f : α → Parse β} {g : State → α}

theorem run_bind_eq_some {b : β} (h : (m >>= f).run s = some (b, s'')) :
    ∃ a s', m.run s = some (a, s') ∧ (f a).run s' = some (b, s'') := by
  rw [StateT.run_bind] at h
  obtain ⟨⟨a, s'⟩, hm, hf⟩ := Option.bind_eq_some_iff.mp h
  exact ⟨a, s', hm, hf⟩

theorem run_bind_of_eq {s' : State} {a : α} (h : m.run s = some (a, s')) :
    (m >>= f).run s = (f a).run s' := by
  rw [StateT.run_bind, h]
  rfl

/-- All that a report changes is what has been reported. -/
theorem exists_of_report {fault : SyntaxFault} {s' : State} {r : Unit}
    (h : (report fault).run s = some (r, s')) :
    ∃ ds place, s' = { s with diagnostics := ds, lastFault := place } := by
  cases h
  dsimp only
  split
  · exact ⟨_, _, rfl⟩
  · exact ⟨_, _, rfl⟩

/-- The rule finds out `g` and leaves the state as it is. -/
def Looks (m : Parse α) (g : State → α) : Prop := ∀ s, m.run s = some (g s, s)

theorem looks_get : Looks get id := fun _ => rfl

theorem looks_token : Looks token fun s => s.stream.current := fun _ => rfl

theorem looks_kindAhead (n : Nat) : Looks (kindAhead n) fun s => (s.stream.peek n).kind :=
  fun _ => rfl

theorem looks_isAt (kind : TokenKind) : Looks (isAt kind) fun s => s.stream.current.kind == kind :=
  fun _ => rfl

theorem looks_isAtWord (word : String) :
    Looks (isAtWord word) fun s => s.stream.current.isWord word :=
  fun _ => rfl

theorem looks_isAtEndOr (kind : TokenKind) :
    Looks (isAtEndOr kind) fun s =>
      s.stream.current.kind == kind || s.stream.current.kind == .endOfFile :=
  fun _ => rfl

theorem Looks.run_bind (hm : Looks m g) (f : α → Parse β) (s : State) :
    (m >>= f).run s = (f (g s)).run s := by
  rw [StateT.run_bind, hm]
  rfl

theorem looks_isAtCast : Looks isAtCast fun s =>
    s.stream.current.kind == .openParen && (s.stream.peek 1).kind == .identifier
      && castWords.contains (lower (s.stream.peek 1).text)
      && (s.stream.peek 2).kind == .closeParen :=
  fun _ => rfl

theorem looks_isAtArrowOrMatch_eq : Looks isAtArrowOrMatch fun s =>
    if s.stream.current.isWord "fn" then
      (s.stream.peek 1).kind == .openParen || (s.stream.peek 1).kind == .ampersand
    else s.stream.current.isWord "match" && (s.stream.peek 1).kind == .openParen := by
  intro s
  unfold isAtArrowOrMatch
  rw [(looks_kindAhead 1).run_bind, (looks_isAtWord "fn").run_bind]
  by_cases h : s.stream.current.isWord "fn" = true
  · simp only [h, if_true]
    rfl
  · simp only [h, Bool.false_eq_true, if_false]
    rfl

theorem looks_isAtArrowOrMatch : ∃ g, Looks isAtArrowOrMatch g := ⟨_, looks_isAtArrowOrMatch_eq⟩

theorem looks_isAtStaticClosure : Looks isAtStaticClosure fun s =>
    s.stream.current.kind == .keyword .staticKw
      && ((s.stream.peek 1).kind == .keyword .functionKw || (s.stream.peek 1).isWord "fn") :=
  fun _ => rfl

theorem looks_isAtNamespace : Looks isAtNamespace fun s =>
    s.stream.current.kind == .keyword .namespaceKw && ((s.stream.peek 1).kind == .identifier
      || (s.stream.peek 1).kind == .qualifiedName || (s.stream.peek 1).kind == .openBrace) :=
  fun _ => rfl

theorem looks_isAtFunctionName_eq : Looks isAtFunctionName fun s =>
    (if (s.stream.peek 1).kind == .ampersand then (s.stream.peek 2).kind
      else (s.stream.peek 1).kind).isMemberName := by
  intro s
  unfold isAtFunctionName
  rw [(looks_kindAhead 1).run_bind]
  by_cases h : ((s.stream.peek 1).kind == .ampersand) = true
  · simp only [h, if_true]
    exact (looks_kindAhead 2).run_bind _ s
  · simp only [h]
    rfl

theorem looks_isAtFunctionName : ∃ g, Looks isAtFunctionName g := ⟨_, looks_isAtFunctionName_eq⟩

theorem looks_isAtEnum : Looks isAtEnum fun s =>
    s.stream.current.isWord "enum" && (s.stream.peek 1).kind == .identifier :=
  fun _ => rfl

/-! ## What is not the end of the file -/

variable {t : Token} {kind : TokenKind}

theorem ne_endOfFile_of_isName (h : kind.isName = true) : kind ≠ .endOfFile := by
  rintro rfl
  cases h

theorem ne_endOfFile_of_isMemberName (h : kind.isMemberName = true) : kind ≠ .endOfFile := by
  rintro rfl
  cases h

theorem ne_endOfFile_of_isWord {word : String} (h : t.isWord word = true) :
    t.kind ≠ .endOfFile := by
  have hk : t.kind = .identifier := eq_of_beq (Bool.and_eq_true_iff.mp h).1
  exact hk ▸ by decide

theorem ne_endOfFile_of_classForm? {form : ClassForm} (h : classForm? t = some form) :
    t.kind ≠ .endOfFile := by
  intro hk
  simp [classForm?, Token.isWord, hk] at h

end PhpAtlas.Grammar
