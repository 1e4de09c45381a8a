import PhpAtlas.Files.FilePath
import PhpAtlas.Tree.Payload

/-! # Reflection

What is known of classes and functions without their bodies: names, files and
hierarchy. Full names are kept without a leading backslash and looked up
without regard to case.
-/

namespace PhpAtlas

structure MethodInfo where
  name : String
  isStatic : Bool
  deriving DecidableEq, Repr

structure ClassInfo where
  name : String
  /-- The file that declares the class; native classes have none. -/
  file : Option FilePath := none
  builtin : Bool := false
  form : ClassForm := .ordinary
  parent : Option String := none
  interfaces : List String := []
  traits : List String := []
  methods : List MethodInfo := []
  deriving DecidableEq, Repr

namespace ClassInfo

/-- A class with all its names brought to their kept form. -/
def normalized (c : ClassInfo) : ClassInfo :=
  { c with
    name := dropLeadingBackslashes c.name
    parent := c.parent.map dropLeadingBackslashes
    interfaces := c.interfaces.map dropLeadingBackslashes
    traits := c.traits.map dropLeadingBackslashes }

/-- A native class of which only the name is known. -/
def native (name : String) : ClassInfo := { name := dropLeadingBackslashes name, builtin := true }

def shortName (c : ClassInfo) : String := lastSegment c.name

/-- What stands before the last backslash of the name. -/
def namespace? (c : ClassInfo) : Option String :=
  let before := c.name.toList.reverse.dropWhile (· != '\\')
  if before.isEmpty then none else some (String.ofList (before.drop 1).reverse)

/-- The method of the class itself with the name. -/
def method? (c : ClassInfo) (name : String) : Option MethodInfo :=
  c.methods.find? fun m => sameName m.name name

def hasName (c : ClassInfo) (name : String) : Bool := sameName c.name (dropLeadingBackslashes name)

/-- The names to which a search for a method goes on: traits, the parent, interfaces. -/
def ancestors (c : ClassInfo) : List String := c.traits ++ c.parent.toList ++ c.interfaces

end ClassInfo

structure FunctionInfo where
  name : String
  file : Option FilePath
  builtin : Bool
  deriving DecidableEq, Repr

/-- A function without a file is native. -/
def FunctionInfo.of (name : String) (file : Option FilePath) : FunctionInfo :=
  ⟨dropLeadingBackslashes name, file, file.isNone⟩

/-- The form in which a name is looked up. -/
def lookupKey (name : String) : String := lower (dropLeadingBackslashes name)

/-- A source of reflection. -/
structure Provider where
  class? : String → Option ClassInfo
  function? : String → Option FunctionInfo

/-- A method together with the class-like that declares it. -/
structure FoundMethod where
  method : MethodInfo
  owner : ClassInfo
  deriving DecidableEq, Repr

/-- The number of class-likes that a search for a method visits. -/
def maxHierarchy : Nat := 64

namespace Provider

variable (p : Provider)

/-- Searches the stacked names and what they inherit from, depth first. Each name counts once
against the limit, also an unknown one. -/
def searchMethod (method : String) : Nat → List String → List String → Option FoundMethod
  | 0, _, _ => none
  | limit + 1, visited, stack =>
      match stack.dropWhile fun name => visited.contains (lower name) with
      | [] => none
      | name :: rest =>
          let visited := lower name :: visited
          match p.class? name with
          | none => searchMethod method limit visited rest
          | some c =>
              match c.method? method with
              | some m => some ⟨m, c⟩
              | none => searchMethod method limit visited (c.ancestors ++ rest)

/-- The declaration of a method as seen from a class. -/
def method? (className method : String) : Option FoundMethod :=
  p.searchMethod method maxHierarchy [] [dropLeadingBackslashes className]

def knowsClass (name : String) : Bool := (p.class? name).isSome

/-- The same for a known class only. -/
def resolveMethod? (className method : String) : Option FoundMethod :=
  if p.knowsClass className then p.method? className method else none

/-- A function, or the global function with the same short name. -/
def resolveFunction? (name : String) : Option FunctionInfo :=
  match p.function? name with
  | some f => some f
  | none =>
      let bare := dropLeadingBackslashes name
      if bare.toList.contains '\\' then p.function? (lastSegment bare) else none

end Provider

/-- Reflection that is filled by hand. A later entry replaces one with its name. -/
structure Catalog where
  classes : List ClassInfo := []
  functions : List FunctionInfo := []
  deriving Repr

namespace Catalog

def insertClass (t : Catalog) (c : ClassInfo) : Catalog :=
  { t with classes := c :: t.classes.filter fun d => !sameName c.name d.name }

def insertFunction (t : Catalog) (f : FunctionInfo) : Catalog :=
  { t with functions := f :: t.functions.filter fun g => !sameName f.name g.name }

def provider (t : Catalog) : Provider where
  class? name := t.classes.find? fun c => lower c.name == lookupKey name
  function? name := t.functions.find? fun f => lower f.name == lookupKey name

end Catalog

end PhpAtlas
