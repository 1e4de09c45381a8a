import PhpAtlas.Json.Reader

/-! # Project files

What a project says of itself. It is an object, or an array with the values of the
fields in their order; every field may be missing or null, unknown ones are
passed over, and a field that is given twice is an error.
-/

namespace PhpAtlas

structure ProjectFile where
  version : Option String := none
  paths : Option (List String) := none
  excludedPaths : Option (List String) := none
  extensions : Option (List String) := none
  natives : Option (List String) := none
  deriving DecidableEq, Repr

namespace ProjectFile

def fileName : String := "phz.json"

/-- The keys of the fields, in the order of an array. -/
def keys : List String :=
  ["phpVersion", "paths", "excludePaths", "fileExtensions", "builtinClasses"]

/-- The text of a field, which may be null. -/
def readText : Json → Option (Option String)
  | .null => some none
  | .string (some s) => some (some s)
  | _ => none

def readItem : Json → Option String
  | .string s => s
  | _ => none

/-- The texts of a field, which may be null. -/
def readTexts : Json → Option (Option (List String))
  | .null => some none
  | .array items => (items.mapM readItem).map some
  | _ => none

/-- The file whose fields have the given values. -/
def ofFields (version paths excludedPaths extensions natives : Json) : Option ProjectFile := do
  return ⟨← readText version, ← readTexts paths, ← readTexts excludedPaths, ← readTexts extensions,
    ← readTexts natives⟩

def member (members : List (String × Json)) (key : String) : Json :=
  (members.lookup key).getD .null

def ofMembers (members : List (String × Json)) : Option ProjectFile :=
  let given := (members.map (·.1)).filter keys.contains
  if given.Nodup then
    ofFields (member members "phpVersion") (member members "paths") (member members "excludePaths")
      (member members "fileExtensions") (member members "builtinClasses")
  else none

def ofJson : Json → Option ProjectFile
  | .array items =>
      if items.length ≤ keys.length then
        ofFields (items.getD 0 .null) (items.getD 1 .null) (items.getD 2 .null)
          (items.getD 3 .null) (items.getD 4 .null)
      else none
  | .object members =>
      (members.mapM fun m : Option String × Json => m.1.map (·, m.2)).bind ofMembers
  | _ => none

def parse? (text : String) : Option ProjectFile := (Json.parse? text).bind ofJson

end ProjectFile

end PhpAtlas
