import PhpAtlas.Mapping.DocType
import PhpAtlas.Mapping.Registry
import PhpAtlas.PhpType.Printer

/-! # Documentation forms

Every type has a form for documentation comments if its shape and the shapes
of its parts can be mapped.
-/

namespace PhpAtlas.Registry

variable (r : Registry)

/-- `T|null` for a compound type, else `?T`. -/
def docOrNull : DocType → DocType
  | .union ts => .union (ts ++ [.name "null"])
  | .intersection ts => .union [.intersection ts, .name "null"]
  | t => .nullable t

mutual

/-- The form of a type that is mapped as a shape, whether or not it has the shape. -/
def docAs (position : Position) : Shape → PhpType → Except UnsupportedShape DocType
  | .simple s, _ => return .name s.text
  | .classString, .classString (some name) => return .generic "class-string" [.ofClass name]
  | .classString, .classString none => return .name "class-string"
  | .iterable, .iterable (.simple .mixed) => return .name "iterable"
  | .iterable, .iterable item => do
      return .generic "iterable" [← docAs .anywhere (← r.select .anywhere item) item]
  | .array, .array (.simple .mixed) (.simple .mixed) => return .name "array"
  | .array, .array (.simple .mixed) item => do
      return .array (← docAs .anywhere (← r.select .anywhere item) item)
  | .array, .array (.simple .int) item => do
      return .array (← docAs .anywhere (← r.select .anywhere item) item)
  | .array, .array key item => do
      let keyForm ← docAs .anywhere (← r.select .anywhere key) key
      let itemForm ← docAs .anywhere (← r.select .anywhere item) item
      return .generic "array" [keyForm, itemForm]
  | .object, t =>
      match t.className? with
      | some name => return .ofClass name
      | none => throw ⟨t.shape, position⟩
  | .selfReference, _ => return .name "self"
  | .staticReference, _ => return .name "static"
  | .parentReference, _ => return .name "parent"
  | .genericObject, .generic name args =>
      return .generic (DocType.classText name) (← docsOf .anywhere args)
  | .union, .union ts => return .union (← docsOf position ts).eraseDups
  | .nullable, .nullable t => do
      return docOrNull (← docAs position (← r.select position t) t)
  | .intersection, .intersection ts => return .intersection (← docsOf position ts)
  | _, t => throw ⟨t.shape, position⟩

def docsOf (position : Position) : List PhpType → Except UnsupportedShape (List DocType)
  | [] => return []
  | t :: ts => do
      let form ← docAs position (← r.select position t) t
      return form :: (← docsOf position ts)

end

theorem docAs_union (position : Position) (ts : List PhpType) :
    r.docAs position .union (.union ts) =
      (fun ds => .union ds.eraseDups) <$> r.docsOf position ts := by
  rw [docAs]
  rfl

/-- The form of a type for documentation comments. -/
def doc (position : Position) (t : PhpType) : Except UnsupportedShape DocType := do
  r.docAs position (← r.select position t) t

end PhpAtlas.Registry
