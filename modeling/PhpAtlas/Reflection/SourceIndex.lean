import PhpAtlas.Reflection.Natives
import PhpAtlas.CodeFile

/-! # Source indexes

Reflection that is read off the files of a project. Of several declarations of
one name the first counts. Native classes and functions stand behind those of
the project.
-/

namespace PhpAtlas

/-- What one file declares. -/
structure Symbols where
  classes : List ClassInfo
  functions : List FunctionInfo
  deriving Repr

namespace CodeFile

/-- The full names that references stand for, where they are known. -/
def fullNames (file : CodeFile) (refs : List (Option NodeId)) : List String :=
  refs.filterMap fun i => i.bind file.arena.fullName?

/-- The traits that a member of a class-like uses. -/
def usedTraits (file : CodeFile) (member : NodeId) : List String :=
  match file.arena.payload? member with
  | some (.traitUse traits) => file.fullNames traits
  | _ => []

/-- The method that a member of a class-like declares. -/
def methodInfo? (file : CodeFile) (member : NodeId) : Option MethodInfo :=
  match file.arena.payload? member with
  | some (.function .method d) => (file.arena.declaredName? member).map (⟨·, d.modifiers.isStatic⟩)
  | _ => none

def classInfo? (file : CodeFile) (i : NodeId) : Option ClassInfo := do
  let .classLike form d ← file.arena.payload? i | none
  let name ← file.arena.fullName? i
  let parents := file.fullNames d.parents
  let members := d.members.filterMap id
  let parent := if form = .ordinary then parents.head? else none
  let others := if form = .ordinary then parents.drop 1 else parents
  return ClassInfo.normalized
    { name, file := some file.path, form, parent
      interfaces := others ++ file.fullNames d.interfaces
      traits := members.flatMap file.usedTraits
      methods := members.filterMap file.methodInfo? }

def symbols (file : CodeFile) : Symbols where
  classes := file.classLikes.filterMap file.classInfo?
  functions := file.functionDeclarations.filterMap fun i =>
    (file.arena.fullName? i).map fun name => .of name (some file.path)

end CodeFile

structure SourceIndex where
  classes : List ClassInfo := []
  functions : List FunctionInfo := []
  /-- Classes that are taken for native, the last of which stands first. -/
  extraNatives : List ClassInfo := []
  files : List FilePath := []
  skipped : List FilePath := []
  deriving Repr

namespace SourceIndex

/-- Adds a class unless its name is taken. -/
def insertClass (classes : List ClassInfo) (c : ClassInfo) : List ClassInfo :=
  if classes.any fun d => sameName d.name c.name then classes else classes ++ [c]

def insertFunction (functions : List FunctionInfo) (f : FunctionInfo) : List FunctionInfo :=
  if functions.any fun g => sameName g.name f.name then functions else functions ++ [f]

def addFile (read : FileTexts) (x : SourceIndex) (path : FilePath) : SourceIndex :=
  match (read path).bind (CodeFile.parse? path) with
  | none => { x with skipped := x.skipped ++ [path] }
  | some file =>
      let symbols := file.symbols
      { x with
        classes := symbols.classes.foldl insertClass x.classes
        functions := symbols.functions.foldl insertFunction x.functions
        files := x.files ++ [path] }

def ofFiles (files : List FilePath) (natives : List String) (read : FileTexts) : SourceIndex :=
  files.foldl (addFile read) { extraNatives := (natives.map ClassInfo.native).reverse }

def class? (x : SourceIndex) (name : String) : Option ClassInfo :=
  (x.classes ++ x.extraNatives ++ Natives.classes).find? fun c => lower c.name == lookupKey name

def function? (x : SourceIndex) (name : String) : Option FunctionInfo :=
  (x.functions ++ Natives.functions).find? fun f => lower f.name == lookupKey name

def provider (x : SourceIndex) : Provider := ⟨x.class?, x.function?⟩

end SourceIndex

end PhpAtlas
