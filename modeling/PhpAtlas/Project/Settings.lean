import PhpAtlas.Files.Content
import PhpAtlas.Files.Discover
import PhpAtlas.Project.ProjectFile
import PhpAtlas.Version

/-! # Settings of a project

The settings are read from the project file, if there is one, and completed by
defaults. Relative paths start at the directory of the file. A version from the
command line stands before that of the file.
-/

namespace PhpAtlas

/-- Why a project has no settings. -/
inductive ProjectError
  | notFound (path : FilePath)
  | unreadable (path : FilePath)
  | malformed (path : Option FilePath)
  | badVersion (cause : InvalidVersion)
  | noPaths
  deriving DecidableEq, Repr

def ProjectError.message : ProjectError → String
  | notFound path => "config not found at " ++ path.text
  | unreadable path => "failed to read config: " ++ path.text
  | malformed none => "failed to parse " ++ ProjectFile.fileName
  | malformed (some path) =>
      "invalid config: " ++ path.text ++ ": failed to parse " ++ ProjectFile.fileName
  | badVersion cause => "invalid phpVersion '" ++ cause.text ++ "': " ++ cause.message
  | noPaths => "'paths' must list at least one directory"

structure Settings where
  version : Version
  query : FileQuery
  /-- Classes that extensions of the language provide. -/
  natives : List String
  deriving DecidableEq, Repr

/-- The settings that a project file in a directory gives. -/
def ProjectFile.settings (f : ProjectFile) (base : FilePath) (version : Option Version) :
    Except ProjectError Settings := do
  let version ← match version, f.version with
    | some v, _ => pure v
    | none, some text => (Version.parse text).mapError .badVersion
    | none, none => pure Version.latest
  let roots ← match f.paths with
    | some [] => throw .noPaths
    | some paths => pure (paths.map fun p => base.join ⟨p⟩)
    | none => pure [base]
  let excluded := (f.excludedPaths.getD []).map fun p => base.join ⟨p⟩
  let extensions := (f.extensions.map (·.map bareExtension)).getD ["php"]
  return ⟨version, ⟨roots, excluded, extensions⟩, f.natives.getD []⟩

namespace Settings

variable {α : Type}

/-- The project file: the named one or the one in the named directory, else that in the working
directory, if it is there. -/
def locate (s : FileSystem α) (here : FilePath) (project : Option FilePath) :
    Except ProjectError (Option FilePath) :=
  match project with
  | none =>
      let path := here.join ⟨ProjectFile.fileName⟩
      .ok (if s.isFile path then some path else none)
  | some project =>
      let named := here.join project
      let path := if s.isDirectory named then named.join ⟨ProjectFile.fileName⟩ else named
      if s.isFile path then .ok (some path) else .error (.notFound path)

/-- The settings that the bytes of a project file give. -/
def ofBytes (path : FilePath) (bytes : Option ByteArray) (version : Option Version) :
    Except ProjectError Settings := do
  let some text := bytes.bind textOfBytes? | throw (.unreadable path)
  let some file := ProjectFile.parse? text | throw (.malformed (some path))
  file.settings path.parent version

/-- Reads the settings of a project. -/
def load {m : Type → Type} [Monad m] (s : FileSystem α) (read : FilePath → m (Option ByteArray))
    (here : FilePath) (project : Option FilePath) (version : Option Version) :
    m (Except ProjectError Settings) := do
  match locate s here project with
  | .error e => return .error e
  | .ok none => return ({} : ProjectFile).settings here version
  | .ok (some path) => return ofBytes path (← read path) version

end Settings

end PhpAtlas
