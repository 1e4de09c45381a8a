import PhpAtlas.Text.Ascii

/-! # Types in documentation comments

They say more than declarations can: the items of arrays, the arguments of
classes, and names of classes as strings.
-/

namespace PhpAtlas

inductive DocType
  | name (text : String)
  | array (item : DocType)
  | generic (name : String) (args : List DocType)
  | nullable (t : DocType)
  | union (ts : List DocType)
  | intersection (ts : List DocType)
  deriving Repr, Inhabited

namespace DocType

mutual

def same : DocType → DocType → Bool
  | name s, name t => s == t
  | array s, array t => same s t
  | generic m ss, generic n ts => m == n && sameList ss ts
  | nullable s, nullable t => same s t
  | union ss, union ts => sameList ss ts
  | intersection ss, intersection ts => sameList ss ts
  | _, _ => false

def sameList : List DocType → List DocType → Bool
  | [], [] => true
  | s :: ss, t :: ts => same s t && sameList ss ts
  | _, _ => false

end

mutual

theorem same_iff (s t : DocType) : same s t = true ↔ s = t := by
  cases s <;> cases t <;> simp [same, same_iff, sameList_iff]

theorem sameList_iff (ss ts : List DocType) : sameList ss ts = true ↔ ss = ts := by
  cases ss <;> cases ts <;> simp [sameList, same_iff, sameList_iff]

end

instance : DecidableEq DocType := fun s t => decidable_of_iff _ (same_iff s t)

/-- The full name of a class with a leading backslash. -/
def classText (s : String) : String := "\\" ++ dropLeadingBackslashes s

def ofClass (s : String) : DocType := name (classText s)

/-- Whether the type stands in parentheses before `[]` and inside of an intersection. -/
def needsParens : DocType → Bool
  | union _ | intersection _ | nullable _ => true
  | _ => false

def isIntersection : DocType → Bool
  | intersection _ => true
  | _ => false

def inParens (need : Bool) (s : String) : String := if need then "(" ++ s ++ ")" else s

mutual

def text : DocType → String
  | name s => s
  | array item => inParens item.needsParens (text item) ++ "[]"
  | generic n args => n ++ "<" ++ joinWith ", " (texts (fun _ => false) args) ++ ">"
  | nullable t => "?" ++ text t
  | union ts => joinWith "|" (texts isIntersection ts)
  | intersection ts => joinWith "&" (texts needsParens ts)

/-- The texts of types, in parentheses where `need` says so. -/
def texts (need : DocType → Bool) : List DocType → List String
  | [] => []
  | t :: ts => inParens (need t) (text t) :: texts need ts

end

end DocType

end PhpAtlas
