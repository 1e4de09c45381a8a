import PhpAtlas.PhpType.Shape
import PhpAtlas.Version

/-! # Mapper registries

A registry lists the shapes that it can map, for one language version. A type
is mapped as the first shape of which its own shape is a case, so the special
shapes stand before the general ones.
-/

namespace PhpAtlas

/-- Where a mapped type will stand. -/
inductive Position
  | property
  | param
  | result
  | anywhere
  deriving DecidableEq, Repr

def Position.name : Position → String
  | property => "property"
  | param => "param"
  | result => "return"
  | anywhere => "any"

/-- A type of a shape that cannot be mapped. -/
structure UnsupportedShape where
  shape : Shape
  position : Position
  deriving DecidableEq, Repr

def UnsupportedShape.message (e : UnsupportedShape) : String :=
  "no type mapper accepts shape '" ++ e.shape.name ++ "' (in " ++ e.position.name ++ " position)"

structure Registry where
  shapes : List Shape
  version : Version
  deriving DecidableEq, Repr

namespace Registry

def allShapes : List Shape :=
  [.simple .mixed, .simple .void, .simple .never, .simple .null, .simple .bool, .simple .int,
    .simple .float, .classString, .simple .string, .simple .callable, .iterable, .array,
    .simple .resource, .simple .object, .selfReference, .staticReference, .parentReference,
    .genericObject, .object, .union, .nullable, .intersection]

def standard (version : Version) : Registry := ⟨allShapes, version⟩

def supports (r : Registry) (f : Feature) : Bool := r.version.supports f

/-- The shape that a type is mapped as. -/
def select (r : Registry) (position : Position) (t : PhpType) : Except UnsupportedShape Shape :=
  match r.shapes.find? t.shape.specializes with
  | some shape => .ok shape
  | none => .error ⟨t.shape, position⟩

/-- The same for a declaration. Before typed properties those have no declared type. -/
def selectDeclared (r : Registry) (position : Position) (t : PhpType) :
    Except UnsupportedShape (Option Shape) := do
  let shape ← r.select position t
  return if position = .property ∧ !r.supports .typedProperties then none else some shape

end Registry

end PhpAtlas
