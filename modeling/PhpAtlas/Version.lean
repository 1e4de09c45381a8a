import PhpAtlas.Text.Ascii
import PhpAtlas.Text.Blank

/-! # Language versions

A version is written `8.1`, `8.1.12` or `80112`; the patch number is dropped.
Each type construct is available from some version on.
-/

namespace PhpAtlas

/-- The number `major * 10000 + minor * 100`. -/
structure Version where
  id : Nat
  deriving DecidableEq, Repr

namespace Version

def of (major minor : Nat) : Version := ⟨major * 10000 + minor * 100⟩

def latest : Version := of 8 3

def major (v : Version) : Nat := v.id / 10000

def minor (v : Version) : Nat := v.id % 10000 / 100

def text (v : Version) : String := s!"{v.major}.{v.minor}"

/-- A decimal number; one plus sign may stand before its digits. -/
def number? (cs : List Char) : Option Nat :=
  let digits := if cs.head? = some '+' then cs.drop 1 else cs
  if digits.isEmpty || !digits.all Char.isDigit then none
  else some (digits.foldl (fun n d => n * 10 + (d.toNat - '0'.toNat)) 0)

/-- The version that a text names. -/
def read? (s : String) : Option Version :=
  let trimmed := trimBlanks s.toList
  match trimmed.span (· != '.') with
  | (id, []) => do
      let id ← number? id
      if 50000 ≤ id ∧ id ≤ 99999 then some ⟨id - id % 100⟩ else none
  | (major, _ :: rest) => do
      let major ← number? major
      let minor ← number? (rest.takeWhile (· != '.'))
      if 5 ≤ major ∧ major ≤ 9 ∧ minor ≤ 99 then some (of major minor) else none

end Version

/-- A text that names no version. -/
structure InvalidVersion where
  text : String
  deriving DecidableEq, Repr

def InvalidVersion.message (e : InvalidVersion) : String :=
  "invalid PHP version '" ++ e.text ++ "', expected a value like \"7.4\" or \"80100\""

def Version.parse (s : String) : Except InvalidVersion Version :=
  match Version.read? s with
  | some v => .ok v
  | none => .error ⟨s⟩

/-- The type constructs that some versions lack. -/
inductive Feature
  | scalarTypes
  | nullableType
  | voidType
  | iterableType
  | objectType
  | typedProperties
  | unionTypes
  | mixedType
  | staticReturnType
  | intersectionTypes
  | neverType
  | nullFalseStandalone
  deriving DecidableEq, Repr

namespace Feature

def all : List Feature :=
  [scalarTypes, nullableType, voidType, iterableType, objectType, typedProperties, unionTypes,
    mixedType, staticReturnType, intersectionTypes, neverType, nullFalseStandalone]

/-- The first version with the feature. -/
def since : Feature → Version
  | scalarTypes => .of 7 0
  | nullableType | voidType | iterableType => .of 7 1
  | objectType => .of 7 2
  | typedProperties => .of 7 4
  | unionTypes | mixedType | staticReturnType => .of 8 0
  | intersectionTypes | neverType => .of 8 1
  | nullFalseStandalone => .of 8 2

end Feature

def Version.supports (v : Version) (f : Feature) : Bool := f.since.id ≤ v.id

end PhpAtlas
