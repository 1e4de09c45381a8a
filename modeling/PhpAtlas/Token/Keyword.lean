import PhpAtlas.Text.Ascii

/-! # Keywords

The reserved words that the grammar of declarations knows. They are read
without regard to case.
-/

namespace PhpAtlas

inductive Keyword
  | abstractKw
  | asKw
  | classKw
  | constKw
  | elseKw
  | elseIfKw
  | extendsKw
  | finalKw
  | functionKw
  | ifKw
  | implementsKw
  | interfaceKw
  | namespaceKw
  | newKw
  | privateKw
  | protectedKw
  | publicKw
  | readonlyKw
  | returnKw
  | staticKw
  | traitKw
  | useKw
  | varKw
  deriving DecidableEq, Repr

namespace Keyword

/-- The spelling in lower case. -/
def text : Keyword → String
  | abstractKw => "abstract"
  | asKw => "as"
  | classKw => "class"
  | constKw => "const"
  | elseKw => "else"
  | elseIfKw => "elseif"
  | extendsKw => "extends"
  | finalKw => "final"
  | functionKw => "function"
  | ifKw => "if"
  | implementsKw => "implements"
  | interfaceKw => "interface"
  | namespaceKw => "namespace"
  | newKw => "new"
  | privateKw => "private"
  | protectedKw => "protected"
  | publicKw => "public"
  | readonlyKw => "readonly"
  | returnKw => "return"
  | staticKw => "static"
  | traitKw => "trait"
  | useKw => "use"
  | varKw => "var"

def all : List Keyword :=
  [abstractKw, asKw, classKw, constKw, elseKw, elseIfKw, extendsKw, finalKw, functionKw, ifKw,
    implementsKw, interfaceKw, namespaceKw, newKw, privateKw, protectedKw, publicKw, readonlyKw,
    returnKw, staticKw, traitKw, useKw, varKw]

def ofText? (s : String) : Option Keyword :=
  let word := lower s
  all.find? (·.text == word)

/-- Whether the word may stand before a class or a class member. -/
def isModifier : Keyword → Bool
  | abstractKw | finalKw | privateKw | protectedKw | publicKw | readonlyKw | staticKw | varKw =>
      true
  | _ => false

end Keyword

end PhpAtlas
