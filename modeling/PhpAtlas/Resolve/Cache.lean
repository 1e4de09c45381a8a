import PhpAtlas.Reflection.Basic
import PhpAtlas.CodeFile
import PhpAtlas.Tree.Detach

/-! # Resolved declarations and their cache

A declaration is cut out of its file. The cache keeps for each symbol what a
look-up gave, a declaration or the reason why there is none.
-/

namespace PhpAtlas

/-- A declaration as a tree of its own whose root is the first node. -/
structure Declaration where
  arena : Arena
  kind : NodeKind
  name : String
  path : FilePath
  /-- Where the declaration stands in its file. -/
  span : Span
  text : String
  deriving Repr

namespace Declaration

/-- The declaration at a node of a file. -/
def extract? (file : CodeFile) (i : NodeId) : Option Declaration := do
  let n ← file.arena.node? i
  let name ← file.arena.declaredName? i
  let text := String.ofList (n.span.text file.text)
  return ⟨file.arena.detach i, n.kind, name, file.path, n.span, text⟩

/-- The class that a method is in, or that the declaration is. -/
def className? (d : Declaration) : Option String := (d.arena.placement? 0).bind Placement.className

end Declaration

/-- Why a symbol has no declaration. -/
inductive Absence
  | nativeSymbol
  | unreadableFile
  | unparseableFile
  | declarationNotFound
  | methodNotDeclared
  deriving DecidableEq, Repr

def Absence.text : Absence → String
  | nativeSymbol => "native symbol"
  | unreadableFile => "unreadable file"
  | unparseableFile => "unparseable file"
  | declarationNotFound => "declaration not found"
  | methodNotDeclared => "method not declared in class body"

/-- What a look-up gave. Found declarations have a serial number, by which a declaration that is
looked up again is told from one that was computed anew. -/
inductive Outcome
  | found (serial : Nat) (d : Declaration)
  | missing (reason : Absence)
  deriving Repr

namespace Outcome

def found? : Outcome → Option (Nat × Declaration)
  | found serial d => some (serial, d)
  | missing _ => none

def isMissing : Outcome → Bool
  | found .. => false
  | missing _ => true

end Outcome

/-- A symbol of a file: a lower-cased name, and the parts of the file's path. -/
structure SymbolId where
  name : String
  file : Option (List PathPart)
  deriving DecidableEq, Repr

def SymbolId.of (name : String) (file : Option FilePath) : SymbolId :=
  ⟨lookupKey name, file.map FilePath.parts⟩

structure Cache where
  /-- By the declaring class and the lower-cased name of the method. -/
  methods : List ((SymbolId × String) × Outcome) := []
  functions : List (SymbolId × Outcome) := []
  classes : List (SymbolId × Outcome) := []
  deriving Repr

namespace Cache

def size (c : Cache) : Nat := c.methods.length + c.functions.length + c.classes.length

def method? (c : Cache) (owner : SymbolId) (method : String) : Option Outcome :=
  c.methods.lookup (owner, lower method)

def function? (c : Cache) (key : SymbolId) : Option Outcome := c.functions.lookup key

def class? (c : Cache) (key : SymbolId) : Option Outcome := c.classes.lookup key

end Cache

/-- How often the cache and the files were used. -/
structure Usage where
  filesRead : Nat := 0
  filesParsed : Nat := 0
  hits : Nat := 0
  /-- Hits on a reason why there is no declaration. -/
  negativeHits : Nat := 0
  misses : Nat := 0
  deriving DecidableEq, Repr

namespace Usage

def countHit (u : Usage) (entry : Outcome) : Usage :=
  { u with
    hits := u.hits + 1
    negativeHits := u.negativeHits + (if entry.isMissing then 1 else 0) }

end Usage

end PhpAtlas
