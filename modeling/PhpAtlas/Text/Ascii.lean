/-! # ASCII letters in names

Names of classes, functions and keywords are compared without regard to the
case of ASCII letters; every other character stands for itself.
-/

namespace PhpAtlas

/-- The name with ASCII letters in lower case. -/
def lower (s : String) : String := String.ofList (s.toList.map Char.toLower)

/-- Equality of names up to the case of ASCII letters. -/
def sameName (a b : String) : Bool := lower a == lower b

/-- The name without its leading backslashes. -/
def dropLeadingBackslashes (s : String) : String :=
  String.ofList (s.toList.dropWhile (· == '\\'))

/-- The part after the last backslash. -/
def lastSegment (s : String) : String :=
  String.ofList (s.toList.reverse.takeWhile (· != '\\')).reverse

/-- What stands before the first backslash and what stands after it. -/
def splitFirstSegment (s : String) : String × String :=
  let (first, rest) := s.toList.span (· != '\\')
  (String.ofList first, String.ofList (rest.drop 1))

/-- Texts in order, with `sep` between them. -/
def joinWith (sep : String) : List String → String
  | [] => ""
  | [s] => s
  | s :: ss => s ++ sep ++ joinWith sep ss

end PhpAtlas
