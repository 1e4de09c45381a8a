import PhpAtlas.PhpType.Basic

/-! # Shapes of types

The outermost form of a type. A reference to a surrounding class and a class
with arguments are special objects, and the name of a class a special string.
-/

namespace PhpAtlas

inductive Shape
  | simple (s : SimpleType)
  | classString
  | iterable
  | array
  | object
  | selfReference
  | staticReference
  | parentReference
  | genericObject
  | union
  | nullable
  | intersection
  deriving DecidableEq, Repr

namespace Shape

def name : Shape → String
  | simple .mixed => "mixed"
  | simple .void => "void"
  | simple .never => "never"
  | simple .null => "null"
  | simple .bool => "boolean"
  | simple .int => "integer"
  | simple .float => "float"
  | simple .string => "string"
  | simple .callable => "callable"
  | simple .resource => "resource"
  | simple .object => "object-without-class"
  | classString => "class-string"
  | iterable => "iterable"
  | array => "array"
  | object => "object"
  | selfReference => "self-reference"
  | staticReference => "static-reference"
  | parentReference => "parent-reference"
  | genericObject => "generic-object"
  | union => "union"
  | nullable => "nullable"
  | intersection => "intersection"

/-- The more general shape, if there is one. -/
def parent : Shape → Option Shape
  | selfReference | staticReference | parentReference | genericObject => some object
  | classString => some (simple .string)
  | _ => none

/-- Whether the shape is the other one or a special case of it. No shape has a grandparent. -/
def specializes (s t : Shape) : Bool := s == t || s.parent == some t

end Shape

def PhpType.shape : PhpType → Shape
  | simple s => .simple s
  | classString _ => .classString
  | iterable _ => .iterable
  | array .. => .array
  | object .named _ => .object
  | object .self _ => .selfReference
  | object .static _ => .staticReference
  | object .parent _ => .parentReference
  | generic .. => .genericObject
  | union _ => .union
  | nullable _ => .nullable
  | intersection _ => .intersection

end PhpAtlas
