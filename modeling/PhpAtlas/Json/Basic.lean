/-! # JSON values

Objects keep their members in order, also repeated ones, and numbers their
digits. An escape can name half of a surrogate pair; a string with such an
escape has no text.
-/

namespace PhpAtlas

inductive Json where
  | null
  | bool (b : Bool)
  | number (digits : String)
  | string (text : Option String)
  | array (items : List Json)
  | object (members : List (Option String × Json))

namespace Json

def text (s : String) : Json := string (some s)

def nat (n : Nat) : Json := number (toString n)

def texts (l : List String) : Json := array (l.map text)

/-- A text, or null when there is none. -/
def text? (s : Option String) : Json := (s.map text).getD null

def record (members : List (String × Json)) : Json :=
  object (members.map fun (key, value) => (some key, value))

end Json

end PhpAtlas
