import PhpAtlas.Proofs.Excerpt.Origins

/-! # Reading trees of operators

Operators and operands are read in order along a tree. An operand is read by its
span, whatever its tree is: its brackets keep it apart from what stands around it.
-/

namespace PhpAtlas

variable {ts xs ys : List Token} {t : Token} {i : NodeId}

/-- The tokens of a text that start in the span. -/
def Span.tokens (s : Span) (ts : List Token) : List Token :=
  ts.filter fun t => s.start ≤ t.start && t.start < s.stop

/-- An expression that ends with its last token: no operator in front of it opens it. -/
def Payload.isOperand {α : Type} : Payload α → Bool
  | .skipped | .call .. | .access .. | .newObject .. | .array _ | .parenthesized _ | .variable ..
  | .name _ | .literal .. => true
  | .unary _ _ before => !before
  | _ => false

/-- The tokens in front of an operand that are one operator. -/
inductive Leading : String → List Token → Prop
  | operator {t : Token} (hk : t.kind = .operator) (h : Grammar.leadingOperators.contains t.value) :
      Leading t.value [t]
  | word {t : Token} (h : t.isWord "clone" = true ∨ t.isWord "print" = true) :
      Leading (lower t.text) [t]
  | cast {t type u : Token} (ht : t.kind = .openParen) (hu : u.kind = .closeParen)
      (h : Grammar.castWords.contains (lower type.text)) :
      Leading ("(" ++ lower type.text ++ ")") [t, type, u]

theorem Leading.ne_nil {operator : String} (h : Leading operator xs) : xs ≠ [] := by
  cases h <;> exact List.cons_ne_nil _ _

namespace Arena

variable {a b : Arena} {p : Payload (Option NodeId)} {s : Span}

/-- The tokens are what is read along the tree, in order. The span of an array does not have the word
that may stand before its bracket. -/
inductive Reads (ts : List Token) (a : Arena) : NodeId → List Token → Prop
  | operand {i : NodeId} {p : Payload (Option NodeId)} {s : Span} (hp : a.payload? i = some p)
      (ho : p.isOperand = true) (hs : a.span? i = some s) : Reads ts a i (s.tokens ts)
  | array {i : NodeId} {entries : List (Option NodeId × Option NodeId)} {s : Span} {word : Token}
      (hp : a.payload? i = some (.array entries)) (hs : a.span? i = some s)
      (hw : word.isWord "array" = true) : Reads ts a i (word :: s.tokens ts)
  | unary {i operand : NodeId} {operator : String} {front xs : List Token}
      (hp : a.payload? i = some (.unary operator (some operand) true)) (hf : Leading operator front)
      (h : Reads ts a operand xs) : Reads ts a i (front ++ xs)
  | binary {i left right : NodeId} {operator : String} {level : Nat} {t : Token}
      {xs ys : List Token} (hp : a.payload? i = some (.binary (some left) operator (some right)))
      (ht : Grammar.binaryOperator? t = some (operator, level)) (hl : Reads ts a left xs)
      (hr : Reads ts a right ys) : Reads ts a i (xs ++ t :: ys)

def IsOperand (a : Arena) (i : NodeId) : Prop := ∃ p, a.payload? i = some p ∧ p.isOperand = true

theorem IsOperand.ne {j : NodeId} (h : a.IsOperand j) (hp : a.payload? i = some p)
    (ho : p.isOperand = false) : i ≠ j := by
  rintro rfl
  obtain ⟨q, hq, hq'⟩ := h
  cases hp.symm.trans hq
  exact Bool.noConfusion (ho.symm.trans hq')

theorem PrefixOf.payload?_eq_some (h : a.PrefixOf b) (hp : a.payload? i = some p) :
    b.payload? i = some p :=
  (h.payload i (lt_size_of_payload? hp)).trans hp

theorem PrefixOf.span?_eq_some (h : a.PrefixOf b) (hs : a.span? i = some s) : b.span? i = some s :=
  (h.span i (lt_size_of_span? hs)).trans hs

theorem Reads.mono (h : a.Reads ts i xs) (hb : a.PrefixOf b) : b.Reads ts i xs := by
  induction h with
  | operand hp ho hs => exact .operand (hb.payload?_eq_some hp) ho (hb.span?_eq_some hs)
  | array hp hs hw => exact .array (hb.payload?_eq_some hp) (hb.span?_eq_some hs) hw
  | unary hp hf _ ih => exact .unary (hb.payload?_eq_some hp) hf ih
  | binary hp ht _ _ hl hr => exact .binary (hb.payload?_eq_some hp) ht hl hr

theorem Reads.lt_size (h : a.Reads ts i xs) : i < a.size := by
  cases h with
  | operand hp | array hp | unary hp | binary hp => exact lt_size_of_payload? hp

end Arena

/-! ## Tokens that have been read -/

theorem Token.Closed.ne_endOfFile (h : Closed (xs ++ t :: ys)) : ∀ u ∈ xs, u.kind ≠ .endOfFile := by
  induction xs with
  | nil => exact fun u hu => absurd hu List.not_mem_nil
  | cons x xs ih =>
    have hc : x.kind ≠ .endOfFile ∧ Closed (xs ++ t :: ys) := by
      cases xs with
      | nil => exact h
      | cons y xs => exact h
    exact List.forall_mem_cons.mpr ⟨hc.1, ih hc.2⟩

theorem Token.Filled.start_lt_stop (h : t.Filled) (hk : t.kind ≠ .endOfFile) : t.start < t.stop := by
  rwa [Filled, if_neg hk] at h

namespace Grammar

/-- The state is on the tokens, and what it has read ends with some of them. -/
structure State.On (ts : List Token) (s : State) : Prop where
  closed : Token.Closed ts
  laid : Token.Laid ts
  front : ∃ front, ts = front ++ s.stream.tokens ∧ ∀ t ∈ front, t.stop ≤ s.readTo
  read : s.readTo ≤ s.stream.current.start

namespace State.On

variable {s s' : State}

theorem suffix (h : s.On ts) : s.stream.tokens <:+ ts := by
  obtain ⟨front, rfl, -⟩ := h.front
  exact List.suffix_append _ _

theorem aligned (h : s.On ts) : s.Aligned :=
  ⟨h.closed.of_suffix h.suffix (List.cons_ne_nil _ _), h.laid.of_suffix h.suffix, h.read⟩

theorem of_eq (h : s.On ts) (ht : s'.stream.tokens = s.stream.tokens)
    (hr : s'.readTo = s.readTo) : s'.On ts where
  closed := h.closed
  laid := h.laid
  front := by
    rw [ht, hr]
    exact h.front
  read := by
    have hc : s'.stream.current = s.stream.current := (List.cons.inj ht).1
    rw [hr, hc]
    exact h.read

theorem filled (h : s.On ts) : s.stream.current.Filled := h.aligned.filled

theorem tokens_eq (h : s.On ts) (hk : s.stream.current.kind ≠ .endOfFile) :
    s.stream.tokens = s.stream.current :: s.stream.next.tokens :=
  tokens_eq_cons h.aligned.closed hk

theorem next (h : s.On ts) : s.next.On ts where
  closed := h.closed
  laid := h.laid
  read := h.aligned.stop_le
  front := by
    obtain ⟨front, hts, hf⟩ := h.front
    have hread := h.read.trans h.filled.start_le_stop
    have hback : ∀ t ∈ front, t.stop ≤ s.stream.current.stop := fun t ht => (hf t ht).trans hread
    by_cases hk : s.stream.current.kind = .endOfFile
    · -- nothing is read at the end of the file
      have hahead : s.stream.ahead = [] := h.aligned.closed.eq_nil hk
      have hnext : s.stream.next.tokens = s.stream.tokens := by
        simp only [TokenStream.next, hahead]
      exact ⟨front, hnext.symm ▸ hts, hback⟩
    · refine ⟨front ++ [s.stream.current], ?_, ?_⟩
      · rw [hts, h.tokens_eq hk]
        simp [State.next]
      · intro t ht
        rcases List.mem_append.mp ht with ht | ht
        · exact hback t ht
        · exact (List.mem_singleton.mp ht ▸ le_rfl)

/-- The tokens on both sides of the one that comes next. -/
theorem tokens_around {s₀ : State} (h : s.On ts) (hk : s.stream.current.kind ≠ .endOfFile)
    (hx : s₀.stream.tokens = xs ++ s.stream.tokens)
    (hy : s.next.stream.tokens = ys ++ s'.stream.tokens) :
    s₀.stream.tokens = (xs ++ s.stream.current :: ys) ++ s'.stream.tokens := by
  rw [hx, h.tokens_eq hk, List.append_assoc, List.cons_append]
  exact congrArg (xs ++ s.stream.current :: ·) hy

/-- What is in front of a state is not the end of the file, so it covers some of the text. -/
theorem filled_of_mem {front : List Token} (h : s.On ts) (hf : ts = front ++ s.stream.tokens) :
    ∀ t ∈ front, t.start < t.stop := by
  intro t ht
  have hc : Token.Closed (front ++ s.stream.current :: s.stream.ahead) := hf ▸ h.closed
  exact (h.laid.filled t (hf ▸ List.mem_append_left _ ht)).start_lt_stop (hc.ne_endOfFile t ht)

/-- The tokens that have been read are those in the span from the first of them to the last one. -/
theorem tokens_span (h : s.On ts) (h' : s'.On ts) (hx : s.stream.tokens = xs ++ s'.stream.tokens) :
    Span.tokens ⟨s.stream.current.start, max s'.readTo s.stream.current.start⟩ ts = xs := by
  obtain ⟨front, hts, hf⟩ := h.front
  obtain ⟨front', hts', hf'⟩ := h'.front
  obtain rfl : front' = front ++ xs := by
    rw [hx, ← List.append_assoc] at hts
    exact List.append_cancel_right (hts'.symm.trans hts)
  have hfilled := h'.filled_of_mem hts'
  have hbefore : front.filter (fun t => s.stream.current.start ≤ t.start &&
      t.start < max s'.readTo s.stream.current.start) = [] := by
    apply List.filter_eq_nil_iff.mpr
    intro t ht
    have hlt := hfilled t (List.mem_append_left _ ht)
    have hle := (hf t ht).trans h.read
    simp only [Bool.and_eq_true, decide_eq_true_eq]
    omega
  have hbetween : xs.filter (fun t => s.stream.current.start ≤ t.start &&
      t.start < max s'.readTo s.stream.current.start) = xs := by
    apply List.filter_eq_self.mpr
    intro t ht
    have hlt := hfilled t (List.mem_append_right _ ht)
    have hle := hf' t (List.mem_append_right _ ht)
    have hmem : t ∈ s.stream.tokens := hx ▸ List.mem_append_left _ ht
    have hstart := h.aligned.laid.start_le t hmem
    simp only [Bool.and_eq_true, decide_eq_true_eq]
    omega
  have hbehind : s'.stream.tokens.filter (fun t => s.stream.current.start ≤ t.start &&
      t.start < max s'.readTo s.stream.current.start) = [] := by
    apply List.filter_eq_nil_iff.mpr
    intro t ht
    have hle := h'.read.trans (h'.aligned.laid.start_le t ht)
    simp only [Bool.and_eq_true, decide_eq_true_eq]
    omega
  rw [hts', Span.tokens, List.filter_append, List.filter_append, hbefore, hbetween, hbehind]
  simp

end State.On

end Grammar

end PhpAtlas
