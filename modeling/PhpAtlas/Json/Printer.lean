import PhpAtlas.Json.Basic
import PhpAtlas.Text.Ascii

/-! # Printing JSON

One item or member a line, indented by two blanks per level; an empty array or
object stands on one line.
-/

namespace PhpAtlas.Json

def hexDigit (n : Nat) : Char := Char.ofNat (if n < 10 then '0'.toNat + n else 'a'.toNat + (n - 10))

/-- A character as it stands in a string. -/
def escape (c : Char) : List Char :=
  match c with
  | '"' => ['\\', '"']
  | '\\' => ['\\', '\\']
  | '\x08' => ['\\', 'b']
  | '\x0c' => ['\\', 'f']
  | '\n' => ['\\', 'n']
  | '\r' => ['\\', 'r']
  | '\t' => ['\\', 't']
  | c =>
      if c.toNat < 0x20 then
        ['\\', 'u', '0', '0', hexDigit (c.toNat / 16), hexDigit (c.toNat % 16)]
      else [c]

def quote (s : String) : String := "\"" ++ String.ofList (s.toList.flatMap escape) ++ "\""

def indent (level : Nat) : String := String.ofList (List.replicate (2 * level) ' ')

/-- Lines between brackets. -/
def bracketed (opening closing : String) (level : Nat) (lines : List String) : String :=
  if lines.isEmpty then opening ++ closing
  else
    opening ++ "\n" ++ joinWith ",\n" (lines.map (indent (level + 1) ++ ·)) ++ "\n" ++
      indent level ++ closing

mutual

def printAt (level : Nat) : Json → String
  | null => "null"
  | bool b => if b then "true" else "false"
  | number digits => digits
  | string s => quote (s.getD "")
  | array l => bracketed "[" "]" level (printItems (level + 1) l)
  | object l => bracketed "\x7b" "\x7d" level (printMembers (level + 1) l)

def printItems (level : Nat) : List Json → List String
  | [] => []
  | v :: l => printAt level v :: printItems level l

def printMembers (level : Nat) : List (Option String × Json) → List String
  | [] => []
  | (key, v) :: l => (quote (key.getD "") ++ ": " ++ printAt level v) :: printMembers level l

end

def print (v : Json) : String := v.printAt 0

end PhpAtlas.Json
