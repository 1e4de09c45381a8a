import PhpAtlas.Text.Ascii

/-! # Types of values

What a value is, apart from how a source would declare it. Unions are built
flat and without repetitions, and nullable types never around null.
-/

namespace PhpAtlas

/-- The types without parts. -/
inductive SimpleType
  | mixed
  | void
  | never
  | null
  | bool
  | int
  | float
  | string
  | callable
  | resource
  | object
  deriving DecidableEq, Repr

/-- How a class is referred to: by its name, or as a class around the reference. -/
inductive ClassReference
  | named
  | self
  | static
  | parent
  deriving DecidableEq, Repr

inductive PhpType
  | simple (s : SimpleType)
  /-- The name of a class, bound to a class or not. -/
  | classString (bound : Option String)
  | iterable (item : PhpType)
  | array (key item : PhpType)
  | object (form : ClassReference) (name : String)
  | generic (name : String) (args : List PhpType)
  | union (members : List PhpType)
  | nullable (inner : PhpType)
  | intersection (members : List PhpType)
  deriving Repr, Inhabited

namespace PhpType

mutual

def same : PhpType → PhpType → Bool
  | simple s, simple t => s == t
  | classString s, classString t => s == t
  | iterable s, iterable t => same s t
  | array k s, array l t => same k l && same s t
  | object e m, object f n => e == f && m == n
  | generic m ss, generic n ts => m == n && sameList ss ts
  | union ss, union ts => sameList ss ts
  | nullable s, nullable t => same s t
  | intersection ss, intersection ts => sameList ss ts
  | _, _ => false

def sameList : List PhpType → List PhpType → Bool
  | [], [] => true
  | s :: ss, t :: ts => same s t && sameList ss ts
  | _, _ => false

end

mutual

theorem same_iff (s t : PhpType) : same s t = true ↔ s = t := by
  cases s <;> cases t <;> simp [same, same_iff, sameList_iff]

theorem sameList_iff (ss ts : List PhpType) : sameList ss ts = true ↔ ss = ts := by
  cases ss <;> cases ts <;> simp [sameList, same_iff, sameList_iff]

end

instance : DecidableEq PhpType := fun s t => decidable_of_iff _ (same_iff s t)

def mixed : PhpType := simple .mixed

def null : PhpType := simple .null

/-- An array with unknown keys and items. -/
def anyArray : PhpType := array mixed mixed

/-- The class with the name, of which leading backslashes are dropped. -/
def ofClass (name : String) : PhpType := object .named (dropLeadingBackslashes name)

/-- The type or null. -/
def orNull : PhpType → PhpType
  | nullable t => nullable t
  | simple .null => null
  | simple .mixed => mixed
  | t => nullable t

/-- What a type adds to a union. -/
def parts : PhpType → List PhpType
  | union ts => ts
  | nullable t => [t, null]
  | t => [t]

/-- The union of types: flat, each member once, and a lone member by itself. -/
def unite (ts : List PhpType) : PhpType :=
  match (ts.flatMap parts).eraseDups with
  | [] => simple .never
  | [t] => t
  | members => union members

/-- The class of an object. -/
def className? : PhpType → Option String
  | object _ name | generic name _ => some name
  | _ => none

mutual

def admitsNull : PhpType → Bool
  | simple .null | simple .mixed | nullable _ => true
  | union ts => anyNullable ts
  | _ => false

def anyNullable : List PhpType → Bool
  | [] => false
  | t :: ts => admitsNull t || anyNullable ts

end

/-- The type without null; null alone leaves nothing. -/
def nonNull? : PhpType → Option PhpType
  | simple .null => none
  | nullable t => some t
  | union ts =>
      match ts.filter (· != null) with
      | [] => none
      | rest => some (unite rest)
  | t => some t

end PhpType

end PhpAtlas
