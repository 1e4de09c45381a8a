import PhpAtlas.PhpType.Basic
import PhpAtlas.Tree.Scope
import PhpAtlas.TypeHint

/-! # Types that hints declare

A hint is read in a scope for the names in it, and inside of a class for
`self`, `static` and `parent`.
-/

namespace PhpAtlas

structure HintContext where
  scope : Scope := {}
  className : Option String := none
  parentClassName : Option String := none

namespace PhpType

/-- A class around the hint, which may be unknown. -/
def surrounding (form : ClassReference) : Option String → PhpType
  | some name => object form name
  | none => mixed

def ofKeyword (c : HintContext) : String → PhpType
  | "int" => simple .int
  | "float" => simple .float
  | "string" => simple .string
  | "bool" | "false" | "true" => simple .bool
  | "array" => anyArray
  | "iterable" => iterable mixed
  | "callable" => simple .callable
  | "object" => simple .object
  | "void" => simple .void
  | "never" => simple .never
  | "null" => null
  | "self" => surrounding .self c.className
  | "static" => surrounding .static c.className
  | "parent" => surrounding .parent c.parentClassName
  | _ => mixed

mutual

def ofHint (c : HintContext) : TypeHint → PhpType
  | .keyword text => ofKeyword c text
  | .name n => if n.isRelative then ofKeyword c (lower n.text) else ofClass (c.scope.resolveClass n)
  | .nullable t => orNull (ofHint c t)
  | .union ts => unite (ofHints c ts)
  | .intersection ts => intersection (ofHints c ts)

def ofHints (c : HintContext) : List TypeHint → List PhpType
  | [] => []
  | t :: ts => ofHint c t :: ofHints c ts

end

end PhpType

end PhpAtlas
