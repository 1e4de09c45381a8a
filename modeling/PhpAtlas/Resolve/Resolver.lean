import PhpAtlas.ExpressionType
import PhpAtlas.Resolve.Cache

/-! # Resolving declarations

Finds the declaration behind a name, a reflection, a type or a call. A symbol
that is not in the cache costs one read of its file.
-/

namespace PhpAtlas

/-- What resolving depends on. -/
structure ResolverContext where
  provider : Provider
  read : FileTexts
  parse : FilePath → String → Option CodeFile := CodeFile.parse?
  typeOf : Arena → Option NodeId → PhpType := Arena.typeOf

structure ResolverState where
  cache : Cache := {}
  usage : Usage := {}
  /-- The number of declarations computed so far. -/
  serial : Nat := 0

/-- Forgets the cache and the counts, but not the serial numbers. -/
def ResolverState.reset (s : ResolverState) : ResolverState := { serial := s.serial }

namespace CodeFile

/-- The node that declares a class of the name. -/
def namedClass? (file : CodeFile) (c : ClassInfo) : Option NodeId :=
  file.classLikes.find? fun i => (file.arena.fullName? i).any c.hasName

/-- The same, or the only class-like of the file whatever its name. -/
def ownerOf? (file : CodeFile) (c : ClassInfo) : Option NodeId :=
  match file.namedClass? c, file.classLikes with
  | some i, _ => some i
  | none, [only] => some only
  | none, _ => none

def namedFunction? (file : CodeFile) (name : String) : Option NodeId :=
  file.functionDeclarations.find? fun i => (file.arena.fullName? i).any (sameName name)

/-- The declaration at a node that was searched for. -/
def declaration (file : CodeFile) (i : Option NodeId) : Except Absence Declaration :=
  match i.bind (Declaration.extract? file) with
  | some d => .ok d
  | none => .error .declarationNotFound

def classDeclaration (c : ClassInfo) (file : CodeFile) : Except Absence Declaration :=
  file.declaration (file.namedClass? c)

def functionDeclaration (f : FunctionInfo) (file : CodeFile) : Except Absence Declaration :=
  file.declaration (file.namedFunction? f.name)

def methodDeclaration (c : ClassInfo) (method : String) (file : CodeFile) :
    Except Absence Declaration :=
  match file.ownerOf? c with
  | none => .error .declarationNotFound
  | some owner =>
      match file.arena.memberMethod? owner method with
      | none => .error .methodNotDeclared
      | some i => file.declaration (some i)

end CodeFile

namespace ResolverContext

variable (r : ResolverContext)

/-- A found declaration with its serial number. -/
abbrev Found := Option (Nat × Declaration)

/-- The file of a symbol with its tree, and how the counts change. -/
def load (file : Option FilePath) (u : Usage) : Except Absence CodeFile × Usage :=
  match file with
  | none => (.error .nativeSymbol, u)
  | some path =>
      let u := { u with filesRead := u.filesRead + 1 }
      match r.read path with
      | none => (.error .unreadableFile, u)
      | some text =>
          let u := { u with filesParsed := u.filesParsed + 1 }
          match r.parse path text with
          | none => (.error .unparseableFile, u)
          | some file => (.ok file, u)

/-- Computes an entry for a symbol that is not in the cache. -/
def compute (file : Option FilePath) (find : CodeFile → Except Absence Declaration)
    (s : ResolverState) : Outcome × ResolverState :=
  let (loaded, usage) := r.load file { s.usage with misses := s.usage.misses + 1 }
  match loaded >>= find with
  | .ok d => (.found s.serial d, { s with usage, serial := s.serial + 1 })
  | .error reason => (.missing reason, { s with usage })

/-- Answers from the cache's entry, or computes one and stores it. -/
def remember (known : Option Outcome) (store : Outcome → Cache → Cache)
    (file : Option FilePath) (find : CodeFile → Except Absence Declaration)
    (s : ResolverState) : Found × ResolverState :=
  match known with
  | some entry => (entry.found?, { s with usage := s.usage.countHit entry })
  | none =>
      let (entry, s) := r.compute file find s
      (entry.found?, { s with cache := store entry s.cache })

def methodOf (owner : ClassInfo) (method : String) (s : ResolverState) : Found × ResolverState :=
  let key := SymbolId.of owner.name owner.file
  r.remember (s.cache.method? key method)
    (fun entry c => { c with methods := ((key, lower method), entry) :: c.methods })
    owner.file (CodeFile.methodDeclaration owner method) s

def functionOf (f : FunctionInfo) (s : ResolverState) : Found × ResolverState :=
  let key := SymbolId.of f.name f.file
  r.remember (s.cache.function? key)
    (fun entry c => { c with functions := (key, entry) :: c.functions })
    f.file (CodeFile.functionDeclaration f) s

/-- The declaration of a class that is asked for by the given name. Native classes have none. -/
def classOf (c : ClassInfo) (requested : String) (s : ResolverState) : Found × ResolverState :=
  if c.builtin || !c.hasName requested then (none, s)
  else
    let key := SymbolId.of c.name c.file
    r.remember (s.cache.class? key)
      (fun entry cache => { cache with classes := (key, entry) :: cache.classes })
      c.file (CodeFile.classDeclaration c) s

/-- The declaration of a method as seen from a class. -/
def method (className method : String) (s : ResolverState) : Found × ResolverState :=
  match r.provider.resolveMethod? className method with
  | none => (none, s)
  | some m => r.methodOf m.owner m.method.name s

def className (name : String) (s : ResolverState) : Found × ResolverState :=
  match r.provider.class? name with
  | none => (none, s)
  | some c => r.classOf c name s

def function (name : String) (s : ResolverState) : Found × ResolverState :=
  match r.provider.resolveFunction? name with
  | none => (none, s)
  | some f => r.functionOf f s

/-- The class that objects of a type are of; null does not count. -/
def classOfType? (t : PhpType) : Option String := t.nonNull?.bind PhpType.className?

def classFromType (t : PhpType) (s : ResolverState) : Found × ResolverState :=
  match classOfType? t with
  | none => (none, s)
  | some name => r.className name s

/-- The receiver's class and the method's name in a call of a method. -/
def callee? (a : Arena) (call : NodeId) : Option (String × String) := do
  let .call form target member _ _ ← a.payload? call | none
  if form = .function then none
  else
    let method ← member.bind a.identifier?
    let className ← classOfType? (r.typeOf a target)
    return (className, method)

/-- The method that a call of a method means. -/
def methodFromCall (a : Arena) (call : NodeId) (s : ResolverState) : Found × ResolverState :=
  match r.callee? a call with
  | none => (none, s)
  | some (className, method) => r.method className method s

/-- The same for calls on an object only. -/
def methodFromObjectCall (a : Arena) (call : NodeId) (s : ResolverState) : Found × ResolverState :=
  if a.kind? call = some .methodCall then r.methodFromCall a call s else (none, s)

end ResolverContext

end PhpAtlas
