import PhpAtlas.Text.Ascii
import PhpAtlas.Text.Blank

/-! # Log formats -/

namespace PhpAtlas

inductive LogFormat
  | text
  | tree
  | json
  deriving DecidableEq, Repr

/-- The format that a setting names; what names none is text. -/
def LogFormat.ofSetting (s : String) : LogFormat :=
  match lower (String.ofList (trimBlanks s.toList)) with
  | "tree" => tree
  | "json" => json
  | _ => text

end PhpAtlas
