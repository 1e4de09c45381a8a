import PhpAtlas.WrittenName

/-! # Name scopes

The namespace and the imports in effect for a region of a file, and the full
names that names in the region stand for.
-/

namespace PhpAtlas

/-- Imported full names by lower-cased visible name, in the order of the keys. -/
abbrev ImportTable := List (String × String)

namespace ImportTable

/-- Adds an entry; it replaces an earlier one with its key. -/
def insert (key name : String) : ImportTable → ImportTable
  | [] => [(key, name)]
  | (k, n) :: rest =>
      if key == k then (key, name) :: rest
      else if key < k then (key, name) :: (k, n) :: rest
      else (k, n) :: insert key name rest

def find? (t : ImportTable) (name : String) : Option String := t.lookup (lower name)

end ImportTable

structure Scope where
  namespaceName : Option String := none
  classImports : ImportTable := []
  functionImports : ImportTable := []
  deriving DecidableEq, Repr, Inhabited

namespace Scope

/-- The name with the namespace before it. -/
def qualify (s : Scope) (name : String) : String :=
  match s.namespaceName with
  | some home => home ++ "\\" ++ name
  | none => name

/-- The full name that a qualified name stands for: its first segment may be imported. -/
def resolveQualified (s : Scope) (text : String) : String :=
  let (first, rest) := splitFirstSegment text
  match s.classImports.find? first with
  | some imported => imported ++ "\\" ++ rest
  | none => s.qualify text

/-- The full name of a class. `self`, `static` and `parent` stay as they are. -/
def resolveClass (s : Scope) (n : WrittenName) : String :=
  match n.form with
  | .fullyQualified => n.text
  | .qualified => s.resolveQualified n.text
  | .unqualified =>
      if n.isRelative then n.text else (s.classImports.find? n.text).getD (s.qualify n.text)

/-- The full name of a function. The global function is not looked for here. -/
def resolveFunction (s : Scope) (n : WrittenName) : String :=
  match n.form with
  | .fullyQualified => n.text
  | .qualified => s.resolveQualified n.text
  | .unqualified => (s.functionImports.find? n.text).getD (s.qualify n.text)

end Scope

end PhpAtlas
