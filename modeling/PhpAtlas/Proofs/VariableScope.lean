import PhpAtlas.Proofs.ExpressionType

/-! # The function that a variable is in

Every function has variables of its own. Assignments to a variable are looked for
in all that its function contains, or the file for a variable outside of all
functions, so that functions and class-likes in there are searched as well. Where
none of these assigns to the variable before its use, the assignment that is
found is one in the variable's own function.
-/

namespace PhpAtlas.Arena

variable {a : Arena} {root g i x : NodeId} {n : Node} {name : String}

/-- The last assignment to a variable before its use in the function that the use is in, or outside
of all functions if the use is. -/
def ownAssignment? (a : Arena) (usage : NodeId) (name : String) : Option (Option NodeId) := do
  let n ← a.node? usage
  let own := (a.descendants (a.regionOf usage)).filter fun i =>
    a.functionOf? i = a.functionOf? usage
  return (← (own.filterMap (a.assignmentTo? name n.start)).foldl laterOf none).2

/-! ## Functions on a path -/

/-- The function that a node is in stands above the node. -/
theorem Forest.of_functionOn? (h : a.Forest) (hr : root < a.size) (hp : a.parent? root = none)
    (hx : a.Reaches root x) (hg : a.functionOn? (a.path x) = some g) :
    a.Reaches root g ∧ a.Reaches g x ∧ a.functionOn? (a.path g) = some g := by
  induction hx with
  | refl =>
    have hroot := hg
    rw [path_of_root hr hp, functionOn?_cons] at hg
    split at hg
    · cases hg
    · split at hg
      · obtain rfl := Option.some.inj hg
        exact ⟨.refl, .refl, hroot⟩
      · cases hg
  | tail hx hc ih =>
    have hown := hg
    rw [h.path_of_child hc, functionOn?_cons] at hg
    split at hg
    · cases hg
    · split at hg
      · obtain rfl := Option.some.inj hg
        exact ⟨hx.tail hc, .refl, hown⟩
      · obtain ⟨hrg, hgp, ho⟩ := ih hg
        exact ⟨hrg, hgp.tail hc, ho⟩

/-- Without a function or a class-like between them, two nodes are in the same function. -/
theorem Forest.functionOn?_eq (h : a.Forest) (hi : a.Reaches g i)
    (hplain : ∀ d, a.Reaches g d → a.Reaches d i → d ≠ g →
      a.isFunction d = false ∧ a.isClassLike d = false) :
    a.functionOn? (a.path i) = a.functionOn? (a.path g) := by
  induction hi with
  | refl => rfl
  | @tail p c hp hc ih =>
    have hne : c ≠ g := fun he => by
      subst he
      exact absurd (h.le_of_reaches hp) (not_le.mpr (h.before _ _ hc))
    obtain ⟨hf, hclass⟩ := hplain c (hp.tail hc) .refl hne
    rw [h.path_of_child hc, functionOn?_cons, hf, hclass]
    exact ih fun d hd hdp => hplain d hd (hdp.tail hc)

/-! ## Regions -/

theorem Forest.outermost_eq (h : a.Forest) (hp : a.parent? root = none) {fuel : Nat}
    (hr : root < a.size) (hx : a.Reaches root x) (hf : a.size ≤ x + fuel) :
    a.outermost fuel x = root := by
  induction fuel generalizing x with
  | zero => exact absurd ((h.le_of_reaches hx).trans_lt hr) (not_lt.mpr hf)
  | succ fuel ih =>
    rw [outermost]
    rcases Relation.ReflTransGen.cases_tail hx with rfl | ⟨p, hrp, hc⟩
    · rw [show (a.node? x).bind Node.parent = none from hp]
    · have hparent := (h.parent x p).mpr hc
      have hlt := (h.lt_of_parent? hparent).1
      rw [show (a.node? x).bind Node.parent = some p from hparent]
      exact ih hrp (by omega)

/-- The region of a variable is in the same function as the variable. -/
theorem DecoratedTree.of_regionOf (h : a.DecoratedTree root) (hroot : a.isFunction root = false)
    (hx : a.Reaches root x) :
    a.Reaches root (a.regionOf x) ∧ a.functionOf? (a.regionOf x) = a.functionOf? x := by
  cases hf : a.functionOf? x with
  | none =>
    have houtermost := h.forest.outermost_eq h.root_parent h.root_lt hx (Nat.le_add_left ..)
    have hregion : a.regionOf x = root := by rw [regionOf, hf, Option.getD_none, houtermost]
    rw [hregion, h.functionOf?_eq .refl, path_of_root h.root_lt h.root_parent, functionOn?_cons,
      hroot]
    exact ⟨.refl, by split <;> rfl⟩
  | some g =>
    have hon := hf
    rw [h.functionOf?_eq hx] at hon
    obtain ⟨hrg, -, hg⟩ := h.forest.of_functionOn? h.root_lt h.root_parent hx hon
    rw [regionOf, hf, Option.getD_some, h.functionOf?_eq hrg]
    exact ⟨hrg, hg⟩

/-- No function or class-like in the region of the variable, except for its own function, assigns to
the variable by the given place. -/
def NoneElseAssigns (a : Arena) (usage : NodeId) (name : String) (stop : Nat) : Prop :=
  ∀ d ∈ a.descendants (a.regionOf usage), d ≠ a.regionOf usage →
    (a.isFunction d || a.isClassLike d) = true →
      ∀ i ∈ a.descendants d, a.assignmentTo? name stop i = none

instance (usage : NodeId) (name : String) (stop : Nat) :
    Decidable (a.NoneElseAssigns usage name stop) :=
  inferInstanceAs (Decidable (∀ d ∈ a.descendants (a.regionOf usage), d ≠ a.regionOf usage →
    (a.isFunction d || a.isClassLike d) = true →
      ∀ i ∈ a.descendants d, a.assignmentTo? name stop i = none))

theorem DecoratedTree.functionOf?_of_assignmentTo? (h : a.DecoratedTree root)
    (hroot : a.isFunction root = false) (hx : a.Reaches root x) {stop : Nat}
    (hfree : a.NoneElseAssigns x name stop) (hi : i ∈ a.descendants (a.regionOf x))
    (ha : a.assignmentTo? name stop i ≠ none) : a.functionOf? i = a.functionOf? x := by
  obtain ⟨hreach, hsame⟩ := h.of_regionOf hroot hx
  have hri := (h.mem_descendants hreach).mp hi
  rw [← hsame, h.functionOf?_eq (hreach.trans hri), h.functionOf?_eq hreach]
  refine h.forest.functionOn?_eq hri fun d hgd hdi hne => ?_
  have hd := (h.mem_descendants hreach).mpr hgd
  have hdi := (h.mem_descendants (hreach.trans hgd)).mpr hdi
  have hnot : ¬(a.isFunction d || a.isClassLike d) = true := fun hfc =>
    ha (hfree d hd hne hfc i hdi)
  simpa using hnot

theorem lastAssignment?_eq_own (hx : a.node? x = some n)
    (hown : ∀ i ∈ a.descendants (a.regionOf x), a.assignmentTo? name n.start i ≠ none →
      a.functionOf? i = a.functionOf? x) : a.lastAssignment? x name = a.ownAssignment? x name := by
  have hfound : ((a.descendants (a.regionOf x)).filter
        fun i => a.functionOf? i = a.functionOf? x).filterMap (a.assignmentTo? name n.start) =
      (a.descendants (a.regionOf x)).filterMap (a.assignmentTo? name n.start) := by
    rw [List.filterMap_filter]
    refine List.filterMap_congr fun i hi => ?_
    cases ha : a.assignmentTo? name n.start i with
    | none => split <;> rfl
    | some v =>
      have := hown i hi (by simp [ha])
      rw [if_pos (by simpa using this)]
  rw [lastAssignment?, ownAssignment?, hx]
  exact congrArg (fun found => (found.foldl laterOf none).bind fun last => some last.2) hfound.symm

end PhpAtlas.Arena

namespace PhpAtlas.Parsed

open Arena Grammar

variable {x : NodeId} {n : Node} {name : String}

/-- The root is the node of the file. -/
theorem isFunction_root (source : List Char) :
    (ofSource source).decorated.arena.isFunction (ofSource source).root = false := by
  obtain ⟨statements, s, -, -, he⟩ := works_ofSource source
  rw [he]
  have hnodes := (s.arena.added (.sourceFile statements) 0 s.stream.current.stop).nodes_decorate
    s.arena.size
  obtain ⟨q, hq⟩ := s.arena.exists_node?_added (.sourceFile statements) 0 s.stream.current.stop
  exact isFunction_of_payload? ((payload?_congr hnodes).trans (payload?_of_node? hq))

/-- Where nothing else in the region of a variable assigns to it before its use, all assignments
there are in the function that the use is in, and the type is taken from the last of them. -/
theorem lastAssignment?_of_own_function (source : List Char)
    (hx : x ∈ (ofSource source).decorated.arena.descendants (ofSource source).root)
    (hn : (ofSource source).decorated.arena.node? x = some n)
    (hfree : (ofSource source).decorated.arena.NoneElseAssigns x name n.start) :
    (∀ i ∈ (ofSource source).decorated.arena.descendants
        ((ofSource source).decorated.arena.regionOf x),
      (ofSource source).decorated.arena.assignmentTo? name n.start i ≠ none →
        (ofSource source).decorated.arena.functionOf? i =
          (ofSource source).decorated.arena.functionOf? x) ∧
      (ofSource source).decorated.arena.lastAssignment? x name =
        (ofSource source).decorated.arena.ownAssignment? x name := by
  have tree := decoratedTree_ofSource source
  have hreach := (tree.mem_descendants .refl).mp hx
  have hown i hi ha :=
    tree.functionOf?_of_assignmentTo? (i := i) (isFunction_root source) hreach hfree hi ha
  exact ⟨hown, lastAssignment?_eq_own hn hown⟩

/-- A use of a variable behind a function in the same function, which assigns to a variable of the
given name. -/
def usedBehind (name : String) : List Char :=
  ("<?php function f() \x7b $a = new A(); function g() \x7b $" ++ name ++
    " = new B(); \x7d $a->run(); \x7d").toList

/-- The function between assigns to another variable. -/
theorem lastAssignment?_of_own_function_usedBehind :
    let p := ofSource (usedBehind "b")
    p.decorated.arena.ownAssignment? 14 "a" = some (some 3) ∧
      p.decorated.arena.lastAssignment? 14 "a" = p.decorated.arena.ownAssignment? 14 "a" := by
  intro p
  have hevaluated : 14 ∈ p.decorated.arena.descendants p.root ∧
      (p.decorated.arena.node? 14).map Node.start = some 66 ∧
      p.decorated.arena.NoneElseAssigns 14 "a" 66 ∧
      p.decorated.arena.ownAssignment? 14 "a" = some (some 3) := by
    decide +kernel
  obtain ⟨hx, hstart, hfree, hown⟩ := hevaluated
  obtain ⟨n, hn, hs⟩ := Option.map_eq_some_iff.mp hstart
  rw [← hs] at hfree
  exact ⟨hown, (lastAssignment?_of_own_function _ hx hn hfree).2⟩

/-- The method of `A` is taken for one of `B` if another function assigns to a variable of the same
name. -/
theorem assignment_of_nested_function :
    let p := ofSource (usedBehind "a")
    let q := ofSource (usedBehind "b")
    p.diagnostics = [] ∧ q.diagnostics = [] ∧ 14 ∈ p.decorated.arena.descendants p.root ∧
      p.decorated.arena.variableName? 14 = some "a" ∧
      p.decorated.arena.lastAssignment? 14 "a" = some (some 9) ∧
      p.decorated.arena.functionOf? 9 ≠ p.decorated.arena.functionOf? 14 ∧
      p.decorated.arena.ownAssignment? 14 "a" = some (some 3) ∧
      p.decorated.arena.typeOf (some 14) = .ofClass "B" ∧
      q.decorated.arena.typeOf (some 14) = .ofClass "A" := by
  decide +kernel

-- The same for a method and a variable outside of all functions.
example :
    let p := ofSource "<?php class C { function m() { $a = new A(); } } $a->run();".toList
    p.diagnostics = [] ∧ p.decorated.arena.functionOf? 10 = none ∧
      p.decorated.arena.functionOf? 4 = some 8 ∧
      p.decorated.arena.lastAssignment? 10 "a" = some (some 4) ∧
      p.decorated.arena.ownAssignment? 10 "a" = none := by
  decide +kernel

end PhpAtlas.Parsed
