import PhpAtlas.Files.Tree
import PhpAtlas.Text.Ascii

/-! # Finding source files

Walks the trees under some roots and collects the files with a wanted
extension, in the order of their paths and each once. What is excluded is left
out together with everything below it.
-/

namespace PhpAtlas

/-- Which files are wanted. -/
structure FileQuery where
  roots : List FilePath
  excluded : List FilePath
  extensions : List String
  deriving DecidableEq, Repr

/-- An extension without the dots that may be written before it. -/
def bareExtension (s : String) : String := String.ofList (s.toList.dropWhile (· == '.'))

namespace FileQuery

def excludes (q : FileQuery) (p : FilePath) : Bool := q.excluded.any (·.contains p)

def wantsExtension (q : FileQuery) (p : FilePath) : Bool :=
  p.extension?.any fun ext => q.extensions.any fun wanted => sameName ext (bareExtension wanted)

variable {α : Type}

mutual

/-- The files of a tree that stands at a path. -/
def filesOf (q : FileQuery) (p : FilePath) : FileTree α → List FilePath
  | .file _ => if q.excludes p || !q.wantsExtension p then [] else [p]
  | .directory entries => if q.excludes p then [] else filesOfEntries q p entries

def filesOfEntries (q : FileQuery) (p : FilePath) : List (String × FileTree α) → List FilePath
  | [] => []
  | (name, t) :: entries => filesOf q (p.join ⟨name⟩) t ++ filesOfEntries q p entries

end

/-- Of neighbours that are the same path the first. -/
def dropRepeats : List FilePath → List FilePath
  | [] => []
  | p :: rest =>
      match dropRepeats rest with
      | [] => [p]
      | q :: kept => if p.same q then p :: kept else p :: q :: kept

/-- The wanted files. -/
def discover (q : FileQuery) (s : FileSystem α) : List FilePath :=
  let found := q.roots.flatMap fun root => ((s.at? root).map (q.filesOf root)).getD []
  dropRepeats (found.mergeSort FilePath.le)

end FileQuery

end PhpAtlas
