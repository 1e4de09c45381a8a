import PhpAtlas.WrittenName

/-! # Type hints

The types that a source declares: keywords, names of classes, and nullable,
union and intersection types over them.
-/

namespace PhpAtlas

inductive TypeHint
  /-- A built-in type in lower case. -/
  | keyword (text : String)
  | name (n : WrittenName)
  | nullable (t : TypeHint)
  | union (ts : List TypeHint)
  | intersection (ts : List TypeHint)
  deriving Repr, Inhabited

/-- The keywords that are types of their own. -/
def typeKeywords : List String :=
  ["array", "bool", "callable", "false", "float", "int", "iterable", "mixed", "never", "null",
    "object", "parent", "self", "static", "string", "true", "void"]

def isTypeKeyword (s : String) : Bool := typeKeywords.contains (lower s)

namespace TypeHint

mutual

def same : TypeHint → TypeHint → Bool
  | keyword s, keyword t => s == t
  | name m, name n => m == n
  | nullable s, nullable t => same s t
  | union ss, union ts => sameList ss ts
  | intersection ss, intersection ts => sameList ss ts
  | _, _ => false

def sameList : List TypeHint → List TypeHint → Bool
  | [], [] => true
  | s :: ss, t :: ts => same s t && sameList ss ts
  | _, _ => false

end

mutual

theorem same_iff (s t : TypeHint) : same s t = true ↔ s = t := by
  cases s <;> cases t <;> simp [same, same_iff, sameList_iff]

theorem sameList_iff (ss ts : List TypeHint) : sameList ss ts = true ↔ ss = ts := by
  cases ss <;> cases ts <;> simp [sameList, same_iff, sameList_iff]

end

instance : DecidableEq TypeHint := fun s t => decidable_of_iff _ (same_iff s t)

def keywordOf (s : String) : TypeHint := keyword (lower s)

/-- A class by its full name. -/
def ofClass (s : String) : TypeHint := name ⟨dropLeadingBackslashes s, .fullyQualified⟩

mutual

/-- The text of a type; an intersection inside of a union stands in parentheses. -/
def text : TypeHint → String
  | keyword s => s
  | name n => if n.form = .fullyQualified then "\\" ++ n.text else n.text
  | nullable t => "?" ++ text t
  | union ts => joinWith "|" (unionParts ts)
  | intersection ts => joinWith "&" (parts ts)

def parts : List TypeHint → List String
  | [] => []
  | t :: ts => text t :: parts ts

def unionParts : List TypeHint → List String
  | [] => []
  | intersection ts :: rest => ("(" ++ joinWith "&" (parts ts) ++ ")") :: unionParts rest
  | t :: rest => text t :: unionParts rest

end

end TypeHint

end PhpAtlas
