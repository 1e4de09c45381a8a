import PhpAtlas.Json.Basic

/-! # Reading JSON

The strict grammar: no comments, no trailing commas, no control characters in
strings, nothing but blanks around the value.
-/

namespace PhpAtlas.Json

def isSpace (c : Char) : Bool := c == ' ' || c == '\n' || c == '\t' || c == '\r'

def skipSpaces (cs : List Char) : List Char := cs.dropWhile isSpace

/-! ## Strings -/

def hexValue? (c : Char) : Option Nat :=
  if c.isDigit then some (c.toNat - '0'.toNat)
  else if 'a' ≤ c ∧ c ≤ 'f' then some (c.toNat - 'a'.toNat + 10)
  else if 'A' ≤ c ∧ c ≤ 'F' then some (c.toNat - 'A'.toNat + 10)
  else none

/-- The code unit that four hexadecimal digits name. -/
def codeUnit? (a b c d : Char) : Option Nat := do
  return ((← hexValue? a) * 16 + (← hexValue? b)) * 256 + (← hexValue? c) * 16 + (← hexValue? d)

def escaped? : Char → Option Char
  | '"' => some '"'
  | '\\' => some '\\'
  | '/' => some '/'
  | 'b' => some '\x08'
  | 'f' => some '\x0c'
  | 'n' => some '\n'
  | 'r' => some '\r'
  | 't' => some '\t'
  | _ => none

/-- A character of a string, or a code unit that an escape names. -/
inductive Piece
  | char (c : Char)
  | unit (n : Nat)

/-- The pieces up to the closing quote, and what follows it. -/
def pieces : List Char → Option (List Piece × List Char)
  | [] => none
  | '"' :: rest => some ([], rest)
  | '\\' :: 'u' :: a :: b :: c :: d :: rest => do
      let n ← codeUnit? a b c d
      let (ps, rest) ← pieces rest
      return (.unit n :: ps, rest)
  | '\\' :: c :: rest => do
      let c ← escaped? c
      let (ps, rest) ← pieces rest
      return (.char c :: ps, rest)
  | c :: rest =>
      if c.toNat < 0x20 then none
      else do
        let (ps, rest) ← pieces rest
        return (.char c :: ps, rest)

def isHighHalf (n : Nat) : Bool := 0xD800 ≤ n && n ≤ 0xDBFF

def isLowHalf (n : Nat) : Bool := 0xDC00 ≤ n && n ≤ 0xDFFF

/-- The characters of a string whose halves all pair up. -/
def joinPieces : List Piece → Option (List Char)
  | [] => some []
  | .char c :: ps => (joinPieces ps).map (c :: ·)
  | .unit n :: ps =>
      if isLowHalf n then none
      else if isHighHalf n then
        match ps with
        | .unit m :: ps =>
            if isLowHalf m then
              let c := Char.ofNat (0x10000 + (n - 0xD800) * 0x400 + (m - 0xDC00))
              (joinPieces ps).map (c :: ·)
            else none
        | _ => none
      else (joinPieces ps).map (Char.ofNat n :: ·)

/-- A string after its opening quote. -/
def string? (cs : List Char) : Option (Option String × List Char) := do
  let (ps, rest) ← pieces cs
  return ((joinPieces ps).map String.ofList, rest)

/-! ## Numbers -/

def digits (cs : List Char) : List Char × List Char := cs.span Char.isDigit

/-- Digits, of which there must be one. -/
def someDigits? (cs : List Char) : Option (List Char × List Char) :=
  match digits cs with
  | ([], _) => none
  | split => some split

/-- The part of a number before a point: no zero stands before other digits. -/
def wholePart? (cs : List Char) : Option (List Char × List Char) :=
  match cs with
  | '0' :: rest => if rest.head?.any Char.isDigit then none else some (['0'], rest)
  | _ => someDigits? cs

def fraction? (cs : List Char) : Option (List Char × List Char) :=
  match cs with
  | '.' :: rest => do
      let (ds, rest) ← someDigits? rest
      return ('.' :: ds, rest)
  | _ => some ([], cs)

def exponent? (cs : List Char) : Option (List Char × List Char) :=
  match cs with
  | e :: rest =>
      if e == 'e' || e == 'E' then do
        let (sign, rest) := match rest with
          | '+' :: rest => (['+'], rest)
          | '-' :: rest => (['-'], rest)
          | _ => ([], rest)
        let (ds, rest) ← someDigits? rest
        return (e :: sign ++ ds, rest)
      else some ([], cs)
  | [] => some ([], [])

def number? (cs : List Char) : Option (Json × List Char) := do
  let (sign, rest) := match cs with
    | '-' :: rest => (['-'], rest)
    | _ => ([], cs)
  let (whole, rest) ← wholePart? rest
  let (part, rest) ← fraction? rest
  let (power, rest) ← exponent? rest
  return (number (String.ofList (sign ++ whole ++ part ++ power)), rest)

/-! ## Values -/

mutual

/-- A value, with a bound on the steps to read it. -/
def value? : Nat → List Char → Option (Json × List Char)
  | 0, _ => none
  | n + 1, cs =>
      match skipSpaces cs with
      | 'n' :: 'u' :: 'l' :: 'l' :: rest => some (null, rest)
      | 't' :: 'r' :: 'u' :: 'e' :: rest => some (bool true, rest)
      | 'f' :: 'a' :: 'l' :: 's' :: 'e' :: rest => some (bool false, rest)
      | '"' :: rest => (string? rest).map fun (s, rest) => (string s, rest)
      | '[' :: rest =>
          match skipSpaces rest with
          | ']' :: rest => some (array [], rest)
          | _ => (items? n rest).map fun (l, rest) => (array l, rest)
      | '\x7b' :: rest =>
          match skipSpaces rest with
          | '\x7d' :: rest => some (object [], rest)
          | _ => (members? n rest).map fun (l, rest) => (object l, rest)
      | cs => number? cs

/-- The rest of an array, from an item on. -/
def items? : Nat → List Char → Option (List Json × List Char)
  | 0, _ => none
  | n + 1, cs => do
      let (item, rest) ← value? n cs
      match skipSpaces rest with
      | ']' :: rest => return ([item], rest)
      | ',' :: rest =>
          let (items, rest) ← items? n rest
          return (item :: items, rest)
      | _ => none

/-- The rest of an object, from a key on. -/
def members? : Nat → List Char → Option (List (Option String × Json) × List Char)
  | 0, _ => none
  | n + 1, cs => do
      let '"' :: rest := skipSpaces cs | none
      let (key, rest) ← string? rest
      let ':' :: rest := skipSpaces rest | none
      let (value, rest) ← value? n rest
      match skipSpaces rest with
      | '\x7d' :: rest => return ([(key, value)], rest)
      | ',' :: rest =>
          let (members, rest) ← members? n rest
          return ((key, value) :: members, rest)
      | _ => none

end

/-- Each step but the first reads a character or is the first in an array. -/
def stepBound (cs : List Char) : Nat := 2 * cs.length + 2

/-- The value that a text is. -/
def parse? (s : String) : Option Json :=
  match value? (stepBound s.toList) s.toList with
  | some (v, rest) => if (skipSpaces rest).isEmpty then some v else none
  | none => none

end PhpAtlas.Json
