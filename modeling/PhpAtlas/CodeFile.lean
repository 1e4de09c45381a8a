import PhpAtlas.Files.FilePath
import PhpAtlas.Parsed

/-! # Source files

A file whose text is in the language, with its decorated tree.
-/

namespace PhpAtlas

structure CodeFile where
  path : FilePath
  text : List Char
  arena : Arena
  root : NodeId
  deriving Repr

namespace CodeFile

/-- The file of a text with its tree. -/
def ofParsed (path : FilePath) (text : List Char) (p : Parsed) : CodeFile :=
  ⟨path, text, p.decorated.arena, p.root⟩

/-- The file of a text, unless the text has a syntax error. -/
def parse? (path : FilePath) (text : String) : Option CodeFile :=
  let parsed := Parsed.ofSource text.toList
  if parsed.diagnostics.isEmpty then some (ofParsed path text.toList parsed) else none

def classLikes (file : CodeFile) : List NodeId := file.arena.classLikes file.root

def functionDeclarations (file : CodeFile) : List NodeId :=
  file.arena.allWithin file.root (Arena.isOfKind [.functionDeclaration])

end CodeFile

/-- Where files are read from; some cannot be read. -/
abbrev FileTexts := FilePath → Option String

end PhpAtlas
