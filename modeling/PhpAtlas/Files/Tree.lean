import PhpAtlas.Files.FilePath

/-! # File trees

Files and directories by name. A path is followed through a tree part by part:
only a directory has parts below it, a dot stays where it is, and two dots lead
to the directory above.
-/

namespace PhpAtlas

inductive FileTree (α : Type) where
  | file (content : α)
  | directory (entries : List (String × FileTree α))

namespace FileTree

variable {α : Type}

def empty : FileTree α := directory []

def isFile : FileTree α → Bool
  | file _ => true
  | directory _ => false

def isDirectory (t : FileTree α) : Bool := !t.isFile

def content? : FileTree α → Option α
  | file content => some content
  | directory _ => none

def entries : FileTree α → List (String × FileTree α)
  | file _ => []
  | directory entries => entries

/-- The entries with one put under a name, in the place of an earlier one if there is one. -/
def putEntry (name : String) (t : FileTree α) :
    List (String × FileTree α) → List (String × FileTree α)
  | [] => [(name, t)]
  | (other, u) :: rest =>
      if name == other then (name, t) :: rest else (other, u) :: putEntry name t rest

/-- Puts a tree below the given names, with directories on the way to it. -/
def insert (t : FileTree α) : List String → FileTree α → FileTree α
  | [], new => new
  | name :: names, new =>
      let below := ((t.entries.lookup name).getD empty).insert names new
      directory (putEntry name below t.entries)

/-- Follows the segments of a path from a tree that stands in the given directories, the
innermost of which is the first. -/
def follow : List (List Char) → FileTree α → List (FileTree α) → Option (FileTree α)
  | [], t, _ => some t
  | segment :: segments, t, above =>
      if t.isFile then none
      else if segment.isEmpty || segment == ['.'] then follow segments t above
      else if segment == ['.', '.'] then
        match above with
        | [] => none
        | outer :: above => follow segments outer above
      else (t.entries.lookup (String.ofList segment)).bind (follow segments · (t :: above))

end FileTree

/-- The files below the working directory, and those that are known by absolute paths. -/
structure FileSystem (α : Type) where
  here : FileTree α := .empty
  root : FileTree α := .empty

namespace FileSystem

variable {α : Type}

/-- What stands at a path. The empty path names nothing. -/
def at? (s : FileSystem α) (p : FilePath) : Option (FileTree α) :=
  if p.text.isEmpty then none
  else (if p.isAbsolute then s.root else s.here).follow (splitAtEach '/' p.text.toList) []

def isFile (s : FileSystem α) (p : FilePath) : Bool := (s.at? p).any FileTree.isFile

def isDirectory (s : FileSystem α) (p : FilePath) : Bool := (s.at? p).any FileTree.isDirectory

/-- The names on the way from the top to a path, from the last to the first. -/
def namesOnto : List PathPart → List String → List String
  | [], names => names
  | .name s :: parts, names => namesOnto parts (s :: names)
  | .up :: parts, names => namesOnto parts names.tail
  | _ :: parts, names => namesOnto parts names

def insert (s : FileSystem α) (p : FilePath) (new : FileTree α) : FileSystem α :=
  let names := (namesOnto p.parts []).reverse
  if p.isAbsolute then { s with root := s.root.insert names new }
  else { s with here := s.here.insert names new }

end FileSystem

end PhpAtlas
