import Mathlib.Data.List.Chain
import PhpAtlas.Tree.Scope
import PhpAtlas.Tree.Search
import PhpAtlas.Proofs.Tree.Walk

/-! # Paths to the root

What is around a node, read off the parent links from the node up to its root.
-/

namespace PhpAtlas

namespace Payload

variable {α : Type}

def isClassLike : Payload α → Bool
  | classLike .. => true
  | _ => false

def isFunction : Payload α → Bool
  | function .. => true
  | _ => false

def isNamespace : Payload α → Bool
  | namespaceBlock .. => true
  | _ => false

end Payload

namespace Arena

/-- The node and the nodes above it, at most `fuel` in all. -/
def above (a : Arena) : Nat → NodeId → List NodeId
  | 0, _ => []
  | fuel + 1, i => i :: ((a.parent? i).map (above a fuel)).getD []

/-- The nodes from a node to its root. A parent stands behind its children, so that there are no
more of them than nodes. -/
def path (a : Arena) (i : NodeId) : List NodeId := a.above a.size i

def isClassLike (a : Arena) (i : NodeId) : Bool := (a.payload? i).any Payload.isClassLike

def isFunction (a : Arena) (i : NodeId) : Bool := (a.payload? i).any Payload.isFunction

def isNamespace (a : Arena) (i : NodeId) : Bool := (a.payload? i).any Payload.isNamespace

def namespaceName? (a : Arena) (i : NodeId) : Option String :=
  match a.payload? i with
  | some (.namespaceBlock name _ _) => name
  | _ => none

/-- The nearest class-like. -/
def classLikeOn? (a : Arena) (path : List NodeId) : Option NodeId := path.find? a.isClassLike

/-- The nearest function, if no class-like is nearer. -/
def functionOn? (a : Arena) (path : List NodeId) : Option NodeId :=
  (path.takeWhile fun i => !a.isClassLike i).find? a.isFunction

/-- The nearest namespace. -/
def namespaceOn? (a : Arena) (path : List NodeId) : Option NodeId := path.find? a.isNamespace

/-- The name of the nearest namespace. -/
def homeOn? (a : Arena) (path : List NodeId) : Option String :=
  (a.namespaceOn? path).bind a.namespaceName?

/-- The nearest namespace or else the file. -/
def regionOn (a : Arena) (root : NodeId) (path : List NodeId) : NodeId :=
  (a.namespaceOn? path).getD root

/-- The name that a declaration declares, behind the namespace around it. -/
def qualifiedName? (a : Arena) (i : NodeId) : Option String :=
  (a.declaredName? i).map fun name =>
    match a.homeOn? (a.path i) with
    | some home => home ++ "\\" ++ name
    | none => name

/-- What the first name that a class extends stands for in the scope around the class. -/
def extendedName? (a : Arena) (i : NodeId) : Option String :=
  match a.payload? i with
  | some (.classLike .ordinary d) => do
      match ← a.payload? (← ← d.parents.head?) with
      | .name n => (a.scopeAt? i).map (·.resolveClass n)
      | _ => none
  | _ => none

variable {a : Arena} {c i p root : Nat} {path : List NodeId} {payload : Payload (Option NodeId)}

/-! ## One node more -/

theorem isClassLike_of_payload? (h : a.payload? i = some payload) :
    a.isClassLike i = payload.isClassLike := by
  rw [isClassLike, h, Option.any_some]

theorem isFunction_of_payload? (h : a.payload? i = some payload) :
    a.isFunction i = payload.isFunction := by
  rw [isFunction, h, Option.any_some]

theorem isNamespace_of_payload? (h : a.payload? i = some payload) :
    a.isNamespace i = payload.isNamespace := by
  rw [isNamespace, h, Option.any_some]

theorem classLikeOn?_cons :
    a.classLikeOn? (i :: path) = if a.isClassLike i then some i else a.classLikeOn? path := by
  rw [classLikeOn?, List.find?_cons, classLikeOn?]
  cases a.isClassLike i <;> rfl

theorem functionOn?_cons : a.functionOn? (i :: path) =
    if a.isClassLike i then none else if a.isFunction i then some i else a.functionOn? path := by
  rw [functionOn?, List.takeWhile_cons, functionOn?]
  cases a.isClassLike i with
  | true => rfl
  | false =>
    simp only [Bool.not_false, if_true, List.find?_cons, Bool.false_eq_true, if_false]
    cases a.isFunction i <;> rfl

theorem namespaceOn?_cons :
    a.namespaceOn? (i :: path) = if a.isNamespace i then some i else a.namespaceOn? path := by
  rw [namespaceOn?, List.find?_cons, namespaceOn?]
  cases a.isNamespace i <;> rfl

theorem homeOn?_cons :
    a.homeOn? (i :: path) = if a.isNamespace i then a.namespaceName? i else a.homeOn? path := by
  rw [homeOn?, namespaceOn?_cons, homeOn?]
  split <;> rfl

theorem regionOn_cons :
    a.regionOn root (i :: path) = if a.isNamespace i then i else a.regionOn root path := by
  rw [regionOn, namespaceOn?_cons, regionOn]
  split <;> rfl

/-! ## Paths in a forest -/

theorem Forest.lt_of_parent? (h : a.Forest) (hp : a.parent? i = some p) :
    i < p ∧ p < a.size := by
  have hc := (h.parent i p).mp hp
  exact ⟨h.before p i hc, lt_size_of_mem_children hc⟩

/-- Fuel that reaches the last node is enough. -/
theorem Forest.above_eq (h : a.Forest) {fuel fuel' : Nat} (hi : i < a.size)
    (hf : a.size ≤ i + fuel) (hf' : a.size ≤ i + fuel') : a.above fuel i = a.above fuel' i := by
  induction fuel generalizing i fuel' with
  | zero => exact absurd hf (not_le.mpr hi)
  | succ fuel ih =>
    obtain ⟨fuel', rfl⟩ := Nat.exists_eq_add_one_of_ne_zero (show fuel' ≠ 0 by omega)
    rw [above, above]
    cases hp : a.parent? i with
    | none => rfl
    | some p =>
      obtain ⟨hip, hps⟩ := h.lt_of_parent? hp
      exact congrArg (i :: ·) (ih hps (by omega) (by omega))

theorem Forest.path_of_child (h : a.Forest) (hc : c ∈ a.children i) :
    a.path c = c :: a.path i := by
  have hp := (h.parent c i).mpr hc
  obtain ⟨hci, his⟩ := h.lt_of_parent? hp
  obtain ⟨fuel, hfuel⟩ := Nat.exists_eq_add_one_of_ne_zero (Nat.ne_zero_of_lt his)
  rw [path, path, hfuel, above, hp, ← hfuel]
  exact congrArg (c :: ·) (h.above_eq his (by omega) (by omega))

theorem path_of_root (hi : i < a.size) (hp : a.parent? i = none) : a.path i = [i] := by
  obtain ⟨fuel, hfuel⟩ := Nat.exists_eq_add_one_of_ne_zero (Nat.ne_zero_of_lt hi)
  rw [path, hfuel, above, hp]
  rfl

theorem isChain_above (a : Arena) (fuel : Nat) (i : NodeId) :
    (a.above fuel i).IsChain fun j k => a.parent? j = some k := by
  induction fuel generalizing i with
  | zero => exact .nil
  | succ fuel ih =>
    rw [above]
    cases hp : a.parent? i with
    | none => exact .singleton i
    | some p =>
      refine List.isChain_cons.mpr ⟨fun k hk => ?_, ih p⟩
      cases fuel with
      | zero => cases hk
      | succ fuel => exact hp.trans hk

theorem isChain_path : (a.path i).IsChain fun j k => a.parent? j = some k :=
  a.isChain_above a.size i

theorem head?_path (hi : i < a.size) : (a.path i).head? = some i := by
  obtain ⟨fuel, hfuel⟩ := Nat.exists_eq_add_one_of_ne_zero (Nat.ne_zero_of_lt hi)
  rw [path, hfuel, above, List.head?_cons]

theorem Forest.getLast?_path (h : a.Forest) (hr : root < a.size) (hp : a.parent? root = none)
    (hi : a.Reaches root i) : (a.path i).getLast? = some root := by
  induction hi with
  | refl => rw [path_of_root hr hp, List.getLast?_singleton]
  | tail _ hc ih => rw [h.path_of_child hc, List.getLast?_cons, ih, Option.getD_some]

end Arena

end PhpAtlas
