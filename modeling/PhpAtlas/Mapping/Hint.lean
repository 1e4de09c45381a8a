import PhpAtlas.Mapping.Registry
import PhpAtlas.PhpType.Printer
import PhpAtlas.TypeHint

/-! # Declared forms

The type hint that declares a type at a position, if the language version has
one. A compound type has a hint only if all its members have.
-/

namespace PhpAtlas.Registry

/-- A hint, no hint, or a shape that cannot be mapped. -/
abbrev HintResult := Except UnsupportedShape (Option TypeHint)

variable (r : Registry)

def keywordIf (allowed : Bool) (text : String) : HintResult :=
  return if allowed then some (.keyword text) else none

/-- Whether a type without parts may be declared. -/
def allowsSimple (position : Position) : SimpleType → Bool
  | .mixed => r.supports .mixedType
  | .void => position = .result && r.supports .voidType
  | .never => position = .result && r.supports .neverType
  | .null | .resource => false
  | .bool | .int | .float | .string => r.supports .scalarTypes
  | .callable => position != .property
  | .object => r.supports .objectType

/-- Whether an intersection may be a member of a union. -/
def allowsGroups : Bool := (Version.of 8 2).id ≤ r.version.id

/-- `T|null` for a compound hint, else `?T`. -/
def hintOrNull : TypeHint → Option TypeHint
  | .nullable t => some (.nullable t)
  | .union ts => some (.union (ts ++ [.keyword "null"]))
  | .intersection ts =>
      if r.allowsGroups then some (.union [.intersection ts, .keyword "null"]) else none
  | t => some (.nullable t)

/-- The hint of a type or null, from the type and its own hint. -/
def nullableHint (inner : PhpType) (own : HintResult) : HintResult :=
  match inner with
  | .simple .mixed => own
  | .simple .void | .simple .never | .simple .null => return none
  | _ => if r.supports .nullableType then return (← own).bind r.hintOrNull else return none

/-- Whether a type has no place in a declared union. -/
def barredFromUnion : PhpType → Bool
  | .simple .void | .simple .never | .simple .mixed => true
  | .intersection _ => !r.allowsGroups
  | _ => false

/-- What a hint adds to a union of hints. -/
def hintParts : TypeHint → List TypeHint
  | .union ts => ts
  | .nullable t => [t, .keyword "null"]
  | t => [t]

/-- The members of a declared union, in order, from types and their own hints. -/
def unionParts : List (PhpType × HintResult) → Except UnsupportedShape (Option (List TypeHint))
  | [] => return some []
  | (t, own) :: rest => do
      if r.barredFromUnion t then return none
      let some hint ← own | return none
      return (← unionParts rest).map (hintParts hint ++ ·)

def unionHint (members : List (PhpType × HintResult)) (withNull : Bool) : HintResult := do
  if !r.supports .unionTypes then return none
  let some found ← r.unionParts members | return none
  let nulls : List TypeHint := if withNull then [.keyword "null"] else []
  match (found ++ nulls).eraseDups with
  | [] => return none
  | [hint] => return some hint
  | hints => return some (.union hints)

/-- The members of a declared intersection, which are all names. -/
def intersectionParts : List (PhpType × HintResult) →
    Except UnsupportedShape (Option (List TypeHint))
  | [] => return some []
  | (_, own) :: rest => do
      let some (.name n) ← own | return none
      return (← intersectionParts rest).map (.name n :: ·)

def notNull (members : List (PhpType × HintResult)) : List (PhpType × HintResult) :=
  members.filter (·.1 != .null)

/-- The hint of a union from its members. -/
def ofMembers (members : List (PhpType × HintResult)) : HintResult :=
  let rest := notNull members
  let hasNull := rest.length < members.length
  match rest with
  | [] => return none
  | [(t, own)] => if hasNull then r.nullableHint t own else own
  | _ => r.unionHint rest hasNull

mutual

/-- The hint of a type that is mapped as a shape, whether or not it has the shape. -/
def hintAs (position : Position) : Shape → PhpType → HintResult
  | .simple s, _ => keywordIf (r.allowsSimple position s) s.text
  | .classString, _ => keywordIf (r.supports .scalarTypes) "string"
  | .iterable, _ => keywordIf (r.supports .iterableType) "iterable"
  | .array, _ => return some (.keyword "array")
  | .object, t =>
      match t.className? with
      | some name => return some (.ofClass name)
      | none => throw ⟨t.shape, position⟩
  | .selfReference, _ => return some (.keyword "self")
  | .staticReference, _ =>
      keywordIf (position = .result && r.supports .staticReturnType) "static"
  | .parentReference, _ => return some (.keyword "parent")
  | .genericObject, .generic name _ => return some (.ofClass name)
  | .union, .union ts => r.ofMembers (hintsOf position ts)
  | .nullable, .nullable (.union ts) => r.unionHint (notNull (hintsOf position ts)) true
  | .nullable, .nullable t => do
      let own : HintResult := do
        let some shape ← r.selectDeclared position t | return none
        hintAs position shape t
      r.nullableHint t own
  | .intersection, .intersection ts => do
      if !r.supports .intersectionTypes then return none
      return (← intersectionParts (hintsOf position ts)).map .intersection
  | _, t => throw ⟨t.shape, position⟩

/-- Types with their hints. -/
def hintsOf (position : Position) : List PhpType → List (PhpType × HintResult)
  | [] => []
  | t :: ts =>
      let own : HintResult := do
        let some shape ← r.selectDeclared position t | return none
        hintAs position shape t
      (t, own) :: hintsOf position ts

end

theorem hintAs_union_members (position : Position) (ts : List PhpType) :
    r.hintAs position .union (.union ts) = r.ofMembers (r.hintsOf position ts) := by
  rw [hintAs]

/-- The hint that declares a type at a position. -/
def hint (position : Position) (t : PhpType) : HintResult := do
  let some shape ← r.selectDeclared position t | return none
  r.hintAs position shape t

end PhpAtlas.Registry
