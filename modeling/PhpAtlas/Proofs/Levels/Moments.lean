import Mathlib.Data.Nat.Basic
import Mathlib.Order.Basic
import PhpAtlas.Proofs.Passing

/-! # Moments of a run

A run of a rule is followed from state to state, together with the statements and
expressions that are open. At every moment the depth is the number of those that are
open, whatever has been reported before, and it is reported as too deep only where
there are more of them than levels.
-/

namespace PhpAtlas.Grammar

variable {α : Type} {m : Parse α} {s s' : State} {a : α} {d : Diagnostic}

def State.deeper (s : State) : State := { s with depth := s.depth + 1 }

def State.shallower (s : State) : State := { s with depth := s.depth - 1 }

/-- A call that counts as nesting. -/
inductive Call
  | statement
  | expression
  deriving DecidableEq, Repr

namespace Call

/-- The rule that is called. -/
def rule (self : Rules) (n : Nat) : Call → Parse (Option NodeId)
  | statement => Grammar.statement self n
  | expression => Grammar.expression self

/-- What the rule does one level deeper. -/
def body (self : Rules) (n : Nat) : Call → Parse (Option NodeId)
  | statement => statementBody self n
  | expression => assignment self

/-- What it does if that is too deep. -/
def recover : Call → Parse Unit
  | statement => advance
  | expression => pure ()

theorem rule_eq {self : Rules} {n : Nat} (c : Call) :
    c.rule self n = nested c.recover (c.body self n) := by
  cases c <;> rfl

end Call

/-- A state that a run comes to, and the calls that are open there, the innermost one first. -/
structure Moment where
  calls : List Call
  state : State

/-- The depth is the number of open calls, and at most one of them is too deep. -/
def Moment.Counted (x : Moment) : Prop :=
  x.state.depth = x.calls.length ∧ x.calls.length ≤ maxDepth + 1

/-- The step of a rule that is no call. -/
inductive Act : {α : Type} → Parse α → Prop
  | advance : Act advance
  | report {fault : SyntaxFault} (h : fault ≠ .tooDeep) : Act (report fault)
  | takeDoc : Act takeDoc
  | node (payload : Payload (Option NodeId)) (start : Nat) : Act (node payload start)
  /-- The node of a source ends with the end of the file. -/
  | readOn : Act (modify fun s => { s with readTo := s.stream.current.stop } : Parse PUnit)

/-- A run of a rule from one state to another with its result, and the moments after the first
state, of which the last state is one. The given calls are open all along. -/
inductive Traced : List Call → {α : Type} → Parse α → State → List Moment → α → State → Prop
  | look {calls : List Call} {α : Type} {m : Parse α} {g : State → α} {s : State}
      (hm : Looks m g) : Traced calls m s [] (g s) s
  | act {calls : List Call} {α : Type} {m : Parse α} {s s' : State} {a : α} (hm : Act m)
      (hr : m.run s = some (a, s')) : Traced calls m s [⟨calls, s'⟩] a s'
  | bind {calls : List Call} {α β : Type} {m : Parse α} {f : α → Parse β} {s s' s'' : State}
      {a : α} {b : β} {before after : List Moment} (hm : Traced calls m s before a s')
      (hf : Traced calls (f a) s' after b s'') :
      Traced calls (m >>= f) s (before ++ after) b s''
  /-- The call is open from the state one level deeper to the last one there. -/
  | enter {calls : List Call} {c : Call} {self : Rules} {n : Nat} {s s' : State}
      {a : Option NodeId} {inner : List Moment} (hd : s.depth < maxDepth)
      (h : Traced (c :: calls) (c.body self n) s.deeper inner a s') :
      Traced calls (c.rule self n) s
        (⟨c :: calls, s.deeper⟩ :: (inner ++ [⟨calls, s'.shallower⟩])) a s'.shallower
  /-- Where it would be too deep, it is reported and closed. -/
  | refuse {calls : List Call} {c : Call} {self : Rules} {n : Nat} {s s₁ s' : State}
      {after : List Moment} (hd : maxDepth ≤ s.depth)
      (hr : (report .tooDeep).run s.deeper = some ((), s₁))
      (h : Traced calls c.recover s₁.shallower after () s') :
      Traced calls (c.rule self n) s
        (⟨c :: calls, s.deeper⟩ :: ⟨c :: calls, s₁⟩ :: ⟨calls, s₁.shallower⟩ :: after) none s'

/-! ## Steps -/

theorem depth_report {fault : SyntaxFault} (h : (report fault).run s = some ((), s')) :
    s'.depth = s.depth := by
  obtain ⟨_, _, rfl⟩ := exists_of_report h
  rfl

/-- A new diagnostic is about the current token. -/
theorem mem_diagnostics_report {fault : SyntaxFault} (h : (report fault).run s = some ((), s'))
    (hd : d ∈ s'.diagnostics) :
    d ∈ s.diagnostics ∨ d.fault = fault ∧ d.start = s.stream.current.start := by
  cases h
  dsimp only at hd
  split at hd
  · exact .inl hd
  · rcases Array.mem_push.mp hd with hd | rfl
    · exact .inl hd
    · exact .inr ⟨rfl, rfl⟩

namespace Act

theorem depth_eq (h : Act m) (hr : m.run s = some (a, s')) : s'.depth = s.depth := by
  cases h with
  | report => exact depth_report hr
  | _ => cases hr; rfl

theorem mem_diagnostics (h : Act m) (hr : m.run s = some (a, s')) (hd : d ∈ s'.diagnostics)
    (hf : d.fault = .tooDeep) : d ∈ s.diagnostics := by
  cases h with
  | report hne =>
    rcases mem_diagnostics_report hr hd with hd | ⟨he, -⟩
    · exact hd
    · exact absurd (he.symm.trans hf) hne
  | _ => cases hr; exact hd

end Act

/-! ## Runs -/

namespace Traced

variable {calls : List Call} {moments : List Moment}

/-- What is followed is a run. -/
theorem run_eq (h : Traced calls m s moments a s') : m.run s = some (a, s') := by
  induction h with
  | look hm => exact hm _
  | act _ hr => exact hr
  | bind _ _ ihm ihf => rw [run_bind_of_eq ihm, ihf]
  | enter hd _ ih => rw [Call.rule_eq]; exact run_nested hd ih
  | refuse hd hr _ ih => rw [Call.rule_eq]; exact run_nested_of_deep hd hr ih

theorem depth_eq (h : Traced calls m s moments a s') : s'.depth = s.depth := by
  induction h with
  | look => rfl
  | act hm hr => exact hm.depth_eq hr
  | bind _ _ ihm ihf => exact ihf.trans ihm
  | enter _ _ ih => exact congrArg (· - 1) ih
  | refuse _ hr _ ih => exact ih.trans (congrArg (· - 1) (depth_report hr))

/-- A run that starts with the right depth has the right depth at every moment. -/
theorem counted (h : Traced calls m s moments a s') (hs : s.depth = calls.length)
    (hle : calls.length ≤ maxDepth) : ∀ x ∈ moments, x.Counted := by
  induction h with
  | look => exact fun _ hx => absurd hx List.not_mem_nil
  | act hm hr =>
    exact List.forall_mem_singleton.mpr ⟨(hm.depth_eq hr).trans hs, Nat.le_succ_of_le hle⟩
  | bind hm _ ihm ihf =>
    exact List.forall_mem_append.mpr ⟨ihm hs hle, ihf (hm.depth_eq.trans hs) hle⟩
  | @enter calls c _ _ s s' _ _ hd h ih =>
    have hin : s.deeper.depth = (c :: calls).length := congrArg (· + 1) hs
    have hout : s'.shallower.depth = calls.length := congrArg (· - 1) (h.depth_eq.trans hin)
    have hlt : (c :: calls).length ≤ maxDepth := hin.ge.trans hd
    refine List.forall_mem_cons.mpr ⟨⟨hin, Nat.le_succ_of_le hlt⟩, ?_⟩
    refine List.forall_mem_append.mpr ⟨ih hin hlt, List.forall_mem_singleton.mpr ?_⟩
    exact ⟨hout, Nat.le_succ_of_le hle⟩
  | @refuse calls c _ _ s s₁ _ _ _ hr h ih =>
    -- The refused call counts until it is closed. Only here is there one more than levels.
    have hin : s.deeper.depth = (c :: calls).length := congrArg (· + 1) hs
    have hreported : s₁.depth = (c :: calls).length := (depth_report hr).trans hin
    have hout : s₁.shallower.depth = calls.length := congrArg (· - 1) hreported
    have hlt : (c :: calls).length ≤ maxDepth + 1 := Nat.succ_le_succ hle
    refine List.forall_mem_cons.mpr ⟨⟨hin, hlt⟩, List.forall_mem_cons.mpr ⟨⟨hreported, hlt⟩, ?_⟩⟩
    exact List.forall_mem_cons.mpr ⟨⟨hout, Nat.le_succ_of_le hle⟩, ih hout hle⟩

/-- That it is too deep was reported before, or at a moment with more open calls than levels. -/
theorem of_tooDeep (h : Traced calls m s moments a s') (hs : s.depth = calls.length)
    (hd : d ∈ s'.diagnostics) (hf : d.fault = .tooDeep) : d ∈ s.diagnostics ∨
      ∃ x ∈ moments, maxDepth < x.calls.length ∧ x.state.stream.current.start = d.start := by
  induction h with
  | look => exact .inl hd
  | act hm hr => exact .inl (hm.mem_diagnostics hr hd hf)
  | bind hm _ ihm ihf =>
    rcases ihf (hm.depth_eq.trans hs) hd with hd | ⟨x, hx, hp⟩
    · rcases ihm hs hd with hd | ⟨x, hx, hp⟩
      · exact .inl hd
      · exact .inr ⟨x, List.mem_append_left _ hx, hp⟩
    · exact .inr ⟨x, List.mem_append_right _ hx, hp⟩
  | enter _ _ ih =>
    rcases ih (congrArg (· + 1) hs) hd with hd | ⟨x, hx, hp⟩
    · exact .inl hd
    · exact .inr ⟨x, List.mem_cons_of_mem _ (List.mem_append_left _ hx), hp⟩
  | @refuse calls c _ _ s s₁ _ _ hdeep hr h ih =>
    have hout : s₁.shallower.depth = calls.length := by
      rw [← hs]
      exact congrArg (· - 1) (depth_report hr)
    rcases ih hout hd with hd | ⟨x, hx, hp⟩
    · rcases mem_diagnostics_report hr hd with hd | ⟨-, hstart⟩
      · exact .inl hd
      · have hmore : maxDepth < (c :: calls).length := Nat.lt_succ_of_le (hs ▸ hdeep)
        exact .inr ⟨_, List.mem_cons_self, hmore, hstart.symm⟩
    · refine .inr ⟨x, ?_, hp⟩
      exact List.mem_cons_of_mem _ (List.mem_cons_of_mem _ (List.mem_cons_of_mem _ hx))

end Traced

end PhpAtlas.Grammar
