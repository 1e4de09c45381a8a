import PhpAtlas.PhpType.OfHint
import PhpAtlas.Tree.Search

/-! # Types of expressions

A type is read off an expression where it shows: literals, `new`, names of
classes, operators with a fixed result, declared parameters, and the last
assignment to a variable before its use. Everything else is mixed.
-/

namespace PhpAtlas.Arena

variable (a : Arena)

/-- The longest chain of expressions and assignments that is followed. -/
def maxTypeDepth : Nat := 32

/-- The class around a node. -/
def className? (i : NodeId) : Option String := (a.placement? i).bind Placement.className

def parentClassName? (i : NodeId) : Option String :=
  (a.placement? i).bind Placement.parentClassName

def typeOfThis (i : NodeId) : PhpType := ((a.className? i).map PhpType.ofClass).getD .mixed

/-- The type of a name in an expression: a constant or a class. -/
def typeOfName (i : NodeId) (n : WrittenName) : PhpType :=
  match lower n.text with
  | "true" | "false" => .simple .bool
  | "null" => .null
  | "self" => .surrounding .self (a.className? i)
  | "static" => .surrounding .static (a.className? i)
  | "parent" => .surrounding .parent (a.parentClassName? i)
  | _ => ((a.fullName? i).map PhpType.ofClass).getD .mixed

/-- The type of a new object of a class. -/
def typeOfNew (classRef : Option NodeId) : PhpType :=
  match classRef.bind fun i => (a.payload? i).map (i, ·) with
  | some (i, .name n) =>
      match a.typeOfName i n with
      | .object .self name | .object .parent name => .object .named name
      | t => t
  | _ => .simple .object

/-- A number with a point or an exponent is a float, unless it is hexadecimal. -/
def typeOfNumber (literal : String) : PhpType :=
  let cs := (lower literal).toList
  if !(['0', 'x'].isPrefixOf cs) && (cs.contains '.' || cs.contains 'e') then .simple .float
  else .simple .int

/-- The result of a binary operator that does not depend on its operands. -/
def binaryType? : String → Option PhpType
  | "instanceof" | "==" | "!=" | "<>" | "===" | "!==" | "<" | ">" | "<=" | ">=" | "&&" | "||"
  | "and" | "or" | "xor" => some (.simple .bool)
  | "." | ".=" => some (.simple .string)
  | "<=>" => some (.simple .int)
  | _ => none

def unaryType? : String → Option PhpType
  | "!" => some (.simple .bool)
  | "(int)" | "(integer)" | "print" => some (.simple .int)
  | "(bool)" | "(boolean)" => some (.simple .bool)
  | "(float)" | "(double)" => some (.simple .float)
  | "(string)" | "(binary)" => some (.simple .string)
  | "(array)" => some .anyArray
  | "(object)" => some (.simple .object)
  | _ => none

/-- The topmost node above a node. -/
def outermost : Nat → NodeId → NodeId
  | 0, i => i
  | fuel + 1, i =>
      match (a.node? i).bind Node.parent with
      | some parent => outermost fuel parent
      | none => i

def functionOf? (i : NodeId) : Option NodeId := (a.placement? i).bind Placement.function

/-- Where the assignments to a variable are looked for: its function, or its whole tree. -/
def regionOf (i : NodeId) : NodeId := (a.functionOf? i).getD (a.outermost a.size i)

/-- The start and the value of a node that assigns to a variable and ends by `stop`. -/
def assignmentTo? (name : String) (stop : Nat) (i : NodeId) : Option (Nat × Option NodeId) := do
  let n ← a.node? i
  let .assign target value _ := n.payload | none
  if (target.bind a.variableName?) = some name ∧ n.stop ≤ stop then some (n.start, value) else none

/-- Of two assignments the one that starts later, and of equals the second. -/
def laterOf (best : Option (Nat × Option NodeId)) (next : Nat × Option NodeId) :
    Option (Nat × Option NodeId) :=
  match best with
  | some b => if next.1 < b.1 then some b else some next
  | none => some next

/-- The last assignment to a variable before its use. -/
def lastAssignment? (usage : NodeId) (name : String) : Option (Option NodeId) := do
  let n ← a.node? usage
  let found := (a.descendants (a.regionOf usage)).filterMap (a.assignmentTo? name n.start)
  return (← found.foldl laterOf none).2

/-- The declared type of a parameter; a variadic one is an array. -/
def typeOfParameter? (function : NodeId) (name : String) : Option PhpType := do
  let .function _ d ← a.payload? function | none
  let parameter ← (d.parameters.filterMap id).findSome? fun i =>
    match a.payload? i with
    | some (.parameter p) => if p.name = name then some p else none
    | _ => none
  let hint ← parameter.type
  let context : HintContext :=
    ⟨(a.scopeAt? function).getD {}, a.className? function, a.parentClassName? function⟩
  let t := PhpType.ofHint context hint
  return if parameter.variadic then .array (.simple .int) t else t

/-- The declared type of a variable that is never assigned to. -/
def declaredType (usage : NodeId) (name : String) : PhpType :=
  ((a.functionOf? usage).bind (a.typeOfParameter? · name)).getD .mixed

/-- The type of `left ?? right`. -/
def coalesce (left right : PhpType) : PhpType :=
  match left.nonNull? with
  | some left => .unite [left, right]
  | none => right

/-- The type of an expression, with a bound on the chain of expressions. -/
def typeWithin : Nat → Option NodeId → PhpType
  | 0, _ => .mixed
  | depth + 1, e =>
      match e.bind a.unparenthesized? with
      | none => .mixed
      | some i =>
          match a.payload? i with
          | some (.variable (some name) _) =>
              if name = "this" then a.typeOfThis i
              else
                match a.lastAssignment? i name with
                | some value => typeWithin depth value
                | none => a.declaredType i name
          | some (.name n) => a.typeOfName i n
          | some (.newObject classRef _) => a.typeOfNew classRef
          | some (.literal .string _) => .simple .string
          | some (.literal _ value) => typeOfNumber value
          | some (.array _) => .anyArray
          | some (.assign _ value _) => typeWithin depth value
          | some (.conditional condition whenTrue whenFalse) =>
              .unite [typeWithin depth (whenTrue <|> condition), typeWithin depth whenFalse]
          | some (.binary left operator right) =>
              if operator = "??" then coalesce (typeWithin depth left) (typeWithin depth right)
              else (binaryType? operator).getD .mixed
          | some (.unary operator operand _) =>
              if operator = "clone" then typeWithin depth operand
              else (unaryType? operator).getD .mixed
          | _ => .mixed

/-- The type of the expression at a node. -/
def typeOf (e : Option NodeId) : PhpType := a.typeWithin (maxTypeDepth + 1) e

end PhpAtlas.Arena
