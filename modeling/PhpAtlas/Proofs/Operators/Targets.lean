import PhpAtlas.ExpressionType
import PhpAtlas.Proofs.Operators.Precedence

/-! # Targets of assignments

An assignment is read behind all operators, so what they have made of the tokens in
front of the equals sign is its target, and not just the last operand there. Such an
assignment is not one to a variable for the types of expressions.
-/

namespace PhpAtlas

variable {ts xs before own : List Token} {i t v : NodeId}
variable {target value : Option NodeId} {byRef : Bool}

/-- A value that cannot be assigned to. -/
def Payload.isValue {α : Type} : Payload α → Bool
  | .binary .. | .conditional .. | .literal .. | .newObject .. => true
  | .unary _ _ before => before
  | _ => false

/-- The target and the value of an assignment. -/
def Payload.assign? {α : Type} : Payload α → Option (α × α × Bool)
  | .assign target value byRef => some (target, value, byRef)
  | _ => none

namespace Arena

variable {a : Arena}

def IsValue (a : Arena) (i : NodeId) : Prop := ∃ p, a.payload? i = some p ∧ p.isValue = true

theorem payload?_of_assign?
    (h : (a.payload? i).bind Payload.assign? = some (target, value, byRef)) :
    a.payload? i = some (.assign target value byRef) := by
  obtain ⟨p, hp, hb⟩ := Option.bind_eq_some_iff.mp h
  unfold Payload.assign? at hb
  split at hb
  · cases hb
    exact hp
  · cases hb

/-- The second node is the last operand of the tree of the first one. -/
inductive EndsWith (a : Arena) : NodeId → NodeId → Prop
  | operand {v : NodeId} (h : a.IsOperand v) : EndsWith a v v
  | unary {i operand v : NodeId} {operator : String}
      (hp : a.payload? i = some (.unary operator (some operand) true)) (h : EndsWith a operand v) :
      EndsWith a i v
  | binary {i right v : NodeId} {left : Option NodeId} {operator : String}
      (hp : a.payload? i = some (.binary left operator (some right))) (h : EndsWith a right v) :
      EndsWith a i v

theorem EndsWith.isOperand (h : a.EndsWith i v) : a.IsOperand v := by
  induction h with
  | operand h => exact h
  | unary _ _ ih => exact ih
  | binary _ _ ih => exact ih

/-- A tree with more than the last operand is that of an operator. -/
theorem EndsWith.isValue_iff (h : a.EndsWith i v) : a.IsValue i ↔ i ≠ v ∨ a.IsValue v := by
  cases h with
  | operand => simp
  | unary hp h => exact iff_of_true ⟨_, hp, rfl⟩ (.inl (h.isOperand.ne hp rfl))
  | binary hp h => exact iff_of_true ⟨_, hp, rfl⟩ (.inl (h.isOperand.ne hp rfl))

theorem EndsWith.ne_conditional (h : a.EndsWith i v) (condition whenTrue whenFalse : Option NodeId) :
    a.payload? i ≠ some (.conditional condition whenTrue whenFalse) := by
  intro hc
  cases h with
  | operand h => exact h.ne hc rfl rfl
  | unary hp | binary hp => cases hp.symm.trans hc

theorem IsValue.variableName? (h : a.IsValue i) : a.variableName? i = none := by
  obtain ⟨p, hp, hv⟩ := h
  unfold Arena.variableName?
  split
  · next hn =>
    cases hp.symm.trans hn
    cases hv
  · rfl

/-- A value has no name, so no variable is looked up by it. -/
theorem IsValue.assignmentTo? (h : a.IsValue t)
    (hi : a.payload? i = some (.assign (some t) value byRef)) (name : String) (stop : Nat) :
    a.assignmentTo? name stop i = none := by
  obtain ⟨n, hn, hp⟩ := Option.map_eq_some_iff.mp hi
  simp [Arena.assignmentTo?, hn, hp, h.variableName?]

/-- The tokens of a tree are those of its last operand and the ones before it. -/
structure Last (ts : List Token) (a : Arena) (t v : NodeId) (before own : List Token) : Prop where
  ends : a.EndsWith t v
  whole : a.Reads ts t (before ++ own)
  reads : a.Reads ts v own
  alone : before = [] ↔ t = v

theorem Reads.exists_last (h : a.Reads ts i xs) :
    ∃ v before own, xs = before ++ own ∧ a.Last ts i v before own := by
  induction h with
  | @operand i p s hp ho hs =>
    have hreads : a.Reads ts i (s.tokens ts) := .operand hp ho hs
    exact ⟨i, [], _, rfl, .operand ⟨p, hp, ho⟩, hreads, hreads, by simp⟩
  | @array i entries s word hp hs hw =>
    have hreads : a.Reads ts i (word :: s.tokens ts) := .array hp hs hw
    exact ⟨i, [], _, rfl, .operand ⟨_, hp, rfl⟩, hreads, hreads, by simp⟩
  | @unary i operand operator front xs hp hf h ih =>
    obtain ⟨v, before, own, rfl, hl⟩ := ih
    have hne : i ≠ v := hl.ends.isOperand.ne hp rfl
    refine ⟨v, front ++ before, own, (List.append_assoc _ _ _).symm, .unary hp hl.ends, ?_, hl.reads, ?_⟩
    · rw [List.append_assoc]
      exact .unary hp hf h
    · exact iff_of_false (by simp [hf.ne_nil]) hne
  | @binary i left right operator level t xs ys hp ht hleft hright _ ih =>
    obtain ⟨v, before, own, rfl, hl⟩ := ih
    have hne : i ≠ v := hl.ends.isOperand.ne hp rfl
    have hwhole : a.Reads ts i (xs ++ t :: (before ++ own)) := .binary hp ht hleft hright
    refine ⟨v, xs ++ t :: before, own, by simp, .binary hp hl.ends, by simpa using hwhole, hl.reads, ?_⟩
    exact iff_of_false (by simp) hne

end Arena

namespace Parsed

open Grammar

variable {source : List Char}

theorem payload?_decorated (p : Parsed) : p.decorated.arena.payload? i = p.arena.payload? i := by
  rw [Arena.payload?, Arena.node?, decorated, Arena.nodes_decorate]
  rfl

/-- The target of an assignment of an accepted source reads as all that stands in front of the equals
sign. The last operand there is the target only if nothing else stands there. Otherwise the target is
that of an operator, and so is not one that a variable's type is looked up by. -/
theorem assign_target (h : (ofSource source).diagnostics = [])
    (hi : (ofSource source).arena.payload? i = some (.assign target value byRef)) :
    ∃ t v s before own eq rest, target = some t ∧ (ofSource source).arena.span? i = some s ∧
      s.tokens (Token.ofSource source) = (before ++ own) ++ eq :: rest ∧ eq.kind = .equals ∧
      (ofSource source).arena.Last (Token.ofSource source) t v before own ∧
      (∀ condition whenTrue whenFalse, (ofSource source).arena.payload? t ≠
        some (.conditional condition whenTrue whenFalse)) ∧
      ((ofSource source).arena.IsValue t ↔ before ≠ [] ∨ (ofSource source).arena.IsValue v) ∧
      ((ofSource source).arena.IsValue t → ∀ name stop,
        (ofSource source).decorated.arena.assignmentTo? name stop i = none) := by
  have hassigns : ∃ t, target = some t ∧
      (ofSource source).arena.Assigns (Token.ofSource source) i t := by
    obtain ⟨statements, s, hlist, hclean, -, he⟩ := clean_statements h
    rw [he] at hi ⊢
    dsimp only at hi ⊢
    rw [Arena.payload?_added] at hi
    split at hi
    · cases hi
    · obtain ⟨t, rfl, hassigns⟩ :=
        (passed_statements hlist).operations i _ (Nat.zero_le i) hi hclean
      exact ⟨t, rfl, hassigns.mono Arena.prefixOf_added⟩
  obtain ⟨t, rfl, span, xs, eq, rest, hspan, htokens, heq, hreads⟩ := hassigns
  obtain ⟨v, before, own, rfl, hlast⟩ := hreads.exists_last
  have hvalue : (ofSource source).arena.IsValue t ↔
      before ≠ [] ∨ (ofSource source).arena.IsValue v := by
    rw [hlast.ends.isValue_iff, ne_eq, ne_eq, hlast.alone]
  refine ⟨t, v, span, before, own, eq, rest, rfl, hspan, htokens, heq, hlast,
    hlast.ends.ne_conditional, hvalue, fun hv => ?_⟩
  obtain ⟨p, hp, hv⟩ := hv
  have hdecorated : (ofSource source).decorated.arena.IsValue t :=
    ⟨p, (payload?_decorated _).trans hp, hv⟩
  exact hdecorated.assignmentTo? ((payload?_decorated _).trans hi)

/-- A negation takes the variable, and is assigned to. -/
theorem assign_target_negation :
    let p := ofSource "<?php !$a = f();".toList
    p.diagnostics = [] ∧ p.arena.IsValue 1 ∧
      ∀ name stop, p.decorated.arena.assignmentTo? name stop 4 = none := by
  intro p
  have hevaluated : p.diagnostics = [] ∧
      (p.arena.payload? 4).bind Payload.assign? = some (some 1, some 3, false) ∧
      (p.arena.payload? 1).any Payload.isValue := by
    decide +kernel
  obtain ⟨hd, hassign, hnegation⟩ := hevaluated
  obtain ⟨q, hq, hv⟩ := (Option.any_eq_true _ _).mp hnegation
  have hvalue : p.arena.IsValue 1 := ⟨q, hq, hv⟩
  obtain ⟨t, v, s, before, own, eq, rest, ht, -, -, -, -, -, -, hlookup⟩ :=
    assign_target hd (Arena.payload?_of_assign? hassign)
  cases ht
  exact ⟨hd, hvalue, hlookup hvalue⟩

/-- The variable is assigned to an instance behind `&&`, and has no assignment where it is used. -/
theorem exists_assign_to_value : ∃ source i t value,
    let p := ofSource source
    p.diagnostics = [] ∧ p.arena.payload? i = some (.assign (some t) value false) ∧
      p.arena.IsValue t ∧ p.decorated.arena.variableName? 7 = some "b" ∧
      p.decorated.arena.lastAssignment? 7 "b" = none := by
  have hevaluated :
      let p := ofSource "<?php $a && $b = new B(); $b->run();".toList
      p.diagnostics = [] ∧
        (p.arena.payload? 5).bind Payload.assign? = some (some 2, some 4, false) ∧
        (p.arena.payload? 2).any Payload.isValue ∧ p.decorated.arena.variableName? 7 = some "b" ∧
        p.decorated.arena.lastAssignment? 7 "b" = none := by
    decide +kernel
  obtain ⟨hd, hassign, hoperator, hname, hlast⟩ := hevaluated
  obtain ⟨q, hq, hv⟩ := (Option.any_eq_true _ _).mp hoperator
  exact ⟨_, 5, 2, some 4, hd, Arena.payload?_of_assign? hassign, ⟨q, hq, hv⟩, hname, hlast⟩

end Parsed

end PhpAtlas
