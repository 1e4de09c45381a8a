import PhpAtlas.Text.Ascii

/-! # Names as written

A name in a source is unqualified (`A`), qualified (`A\B`) or fully qualified
(`\A\B`).
-/

namespace PhpAtlas

inductive NameForm
  | unqualified
  | qualified
  | fullyQualified
  deriving DecidableEq, Repr

/-- A name without its leading backslash. -/
structure WrittenName where
  text : String
  form : NameForm
  deriving DecidableEq, Repr

namespace WrittenName

def ofText (s : String) : WrittenName :=
  match s.toList with
  | '\\' :: cs => ⟨String.ofList cs, .fullyQualified⟩
  | cs => ⟨s, if cs.contains '\\' then .qualified else .unqualified⟩

/-- `self`, `static` and `parent` stand for classes around them. -/
def isRelative (n : WrittenName) : Bool :=
  n.form == .unqualified && ["self", "static", "parent"].contains (lower n.text)

def shortName (n : WrittenName) : String := lastSegment n.text

end WrittenName

end PhpAtlas
