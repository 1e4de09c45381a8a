import PhpAtlas.Text.Ascii

/-! # Paths of files

A path is compared by its parts: doubled slashes and single dots inside of it
do not count, a leading dot does, and double dots are not resolved. Its text is
kept as it was given.
-/

namespace PhpAtlas

inductive PathPart
  | root
  | here
  | up
  | name (s : String)
  deriving DecidableEq, Repr

structure FilePath where
  text : String
  deriving DecidableEq, Repr

/-- The pieces of a text between the separators. -/
def splitAtEach (sep : Char) : List Char → List (List Char)
  | [] => [[]]
  | c :: cs =>
      if c == sep then [] :: splitAtEach sep cs
      else
        match splitAtEach sep cs with
        | [] => [[c]]
        | piece :: pieces => (c :: piece) :: pieces

namespace PathPart

def ofSegment (s : List Char) : PathPart := if s == ['.', '.'] then up else name (String.ofList s)

def rank : PathPart → Nat
  | root => 0
  | here => 1
  | up => 2
  | name _ => 3

/-- The order of parts; names are in the order of their characters. -/
def before : PathPart → PathPart → Bool
  | name s, name t => s < t
  | p, q => p.rank < q.rank

end PathPart

namespace FilePath

def isAbsolute (p : FilePath) : Bool := p.text.toList.head? == some '/'

def parts (p : FilePath) : List PathPart :=
  let segments := splitAtEach '/' p.text.toList
  let named := (segments.filter fun s => !s.isEmpty && s != ['.']).map PathPart.ofSegment
  if p.isAbsolute then .root :: named
  else if segments.head? == some ['.'] then .here :: named
  else named

/-- Whether two texts name one path. -/
def same (p q : FilePath) : Bool := p.parts == q.parts

/-- Whether the first path is the second or above it. -/
def contains (p q : FilePath) : Bool := p.parts.isPrefixOf q.parts

def partsLe : List PathPart → List PathPart → Bool
  | [], _ => true
  | _ :: _, [] => false
  | p :: ps, q :: qs => if p == q then partsLe ps qs else p.before q

/-- The order of paths, part by part. -/
def le (p q : FilePath) : Bool := partsLe p.parts q.parts

/-- The path `p` seen from `base`. An absolute path stands for itself. -/
def join (base p : FilePath) : FilePath :=
  let text := base.text.toList
  if p.isAbsolute then p
  else if text.isEmpty || text.getLast? == some '/' then ⟨base.text ++ p.text⟩
  else ⟨base.text ++ "/" ++ p.text⟩

/-- Drops what does not count from the end of a path that is split into segments, the last of
which stands first; `isLead` tells whether the very first segment counts though it is a dot. -/
def dropNoise (isLead : Bool) : List (List Char) → List (List Char)
  | [] => []
  | s :: before =>
      if s.isEmpty || (s == ['.'] && !(isLead && before.isEmpty)) then dropNoise isLead before
      else s :: before

/-- The path without its last part, as it was written. -/
def parent (p : FilePath) : FilePath :=
  let lead := if p.isAbsolute then "/" else ""
  let segments := splitAtEach '/' (p.text.toList.drop lead.length)
  let drop := dropNoise (!p.isAbsolute)
  let kept := drop (drop segments.reverse).tail
  ⟨lead ++ joinWith "/" (kept.reverse.map String.ofList)⟩

/-- What follows the last dot of the file name, if a character stands before that dot. -/
def extension? (p : FilePath) : Option String :=
  match p.parts.getLast? with
  | some (.name s) =>
      let reversed := s.toList.reverse
      match reversed.span (· != '.') with
      | (after, _ :: _ :: _) => some (String.ofList after.reverse)
      | _ => none
  | _ => none

end FilePath

end PhpAtlas
