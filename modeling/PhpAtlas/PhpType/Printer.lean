import PhpAtlas.PhpType.Basic

/-! # Descriptions of types

The text of a type for people to read. It is neither a declaration nor a
documentation comment, which have forms of their own.
-/

namespace PhpAtlas

def SimpleType.text : SimpleType → String
  | mixed => "mixed"
  | void => "void"
  | never => "never"
  | null => "null"
  | bool => "bool"
  | int => "int"
  | float => "float"
  | string => "string"
  | callable => "callable"
  | resource => "resource"
  | object => "object"

namespace PhpType

mutual

def text : PhpType → String
  | simple s => s.text
  | classString none => "class-string"
  | classString (some name) => "class-string<" ++ name ++ ">"
  | iterable (simple .mixed) => "iterable"
  | iterable item => "iterable<" ++ text item ++ ">"
  | array (simple .mixed) (simple .mixed) => "array"
  | array (simple .mixed) item => "array<" ++ text item ++ ">"
  | array (simple .int) item => "array<" ++ text item ++ ">"
  | array key item => "array<" ++ text key ++ ", " ++ text item ++ ">"
  | object .named name => name
  | object .self name => "self(" ++ name ++ ")"
  | object .static name => "static(" ++ name ++ ")"
  | object .parent name => "parent(" ++ name ++ ")"
  | generic name args => name ++ "<" ++ joinWith ", " (texts args) ++ ">"
  | union ts => joinWith "|" (unionTexts ts)
  | nullable (union ts) => joinWith "|" (unionTexts ts) ++ "|null"
  | nullable (intersection ts) => joinWith "&" (texts ts) ++ "|null"
  | nullable t => "?" ++ text t
  | intersection ts => joinWith "&" (texts ts)

def texts : List PhpType → List String
  | [] => []
  | t :: ts => text t :: texts ts

/-- The members of a union; intersections stand in parentheses. -/
def unionTexts : List PhpType → List String
  | [] => []
  | intersection ts :: rest => ("(" ++ joinWith "&" (texts ts) ++ ")") :: unionTexts rest
  | t :: rest => text t :: unionTexts rest

end

end PhpType

end PhpAtlas
