import PhpAtlas.Command.Arguments
import PhpAtlas.Command.Report
import PhpAtlas.Grammar.Hint
import PhpAtlas.Mapping.Doc
import PhpAtlas.Mapping.Hint
import PhpAtlas.PhpType.Printer
import PhpAtlas.Project.Settings
import PhpAtlas.Reflection.SourceIndex
import PhpAtlas.Resolve.Resolver

/-! # Running commands

A command is answered from the settings of the project and the texts of its
files.
-/

namespace PhpAtlas

/-- Why a command has no report. -/
inductive CommandError
  | project (e : ProjectError)
  | badHint (text : String) (causes : List Diagnostic)
  deriving Repr

def CommandError.message : CommandError → String
  | project e => e.message
  | badHint text causes =>
      "invalid type annotation '" ++ text ++ "': " ++ joinWith "; "
        (causes.map fun d => d.fault.message ++ " at offset " ++ toString d.start)

/-- The source files of a project; those without a text cannot be read. -/
abbrev ProjectSources := List (FilePath × Option String)

namespace ProjectSources

def read (sources : ProjectSources) : FileTexts := fun p =>
  ((sources.find? fun s => s.1.text == p.text).map (·.2)).join

def index (sources : ProjectSources) (natives : List String) : SourceIndex :=
  .ofFiles (sources.map (·.1)) natives sources.read

def resolver (sources : ProjectSources) (natives : List String) : ResolverContext :=
  { provider := (sources.index natives).provider, read := sources.read }

end ProjectSources

/-- The report on a symbol that was looked up. -/
def Report.ofFound (symbol : String) :
    Option (Nat × Declaration) × ResolverState → Report
  | (some (_, d), s) => .declaration ⟨symbol, d.path, d.span, d.className?, d.text, s.usage⟩
  | (none, _) => .notFound symbol

/-- A namespace as it is kept: without backslashes around it, and none for the empty one. -/
def bareNamespace? (s : String) : Option String :=
  let inner := (s.toList.dropWhile (· == '\\')).reverse.dropWhile (· == '\\')
  if inner.isEmpty then none else some (String.ofList inner.reverse)

/-- The report on a type at a position. -/
def TypeSummary.of (version : Version) (text : String) (position : Position)
    (namespaceName : Option String) (hint : TypeHint) : TypeSummary :=
  let registry := Registry.standard version
  let t := PhpType.ofHint { scope := { namespaceName := namespaceName.bind bareNamespace? } } hint
  let doc := registry.doc position t
  let native := registry.hint position t
  let error? {α : Type} : Except UnsupportedShape α → Option String
    | .ok _ => none
    | .error e => some e.message
  { text
    position := position.name
    semantic := t.text
    shape := t.shape.name
    doc := doc.toOption.map DocType.text
    native := (native.toOption.bind id).map TypeHint.text
    error := error? doc <|> error? native }

def IndexSummary.of (x : SourceIndex) (list : Bool) : IndexSummary where
  files := x.files.length
  skipped := x.skipped
  classes := x.classes.length
  functions := x.functions.length
  classNames := if list then x.classes.map ClassInfo.name else []
  functionNames := if list then x.functions.map FunctionInfo.name else []

namespace Command

/-- Whether the files of the project matter. -/
def needsSources : Command → Bool
  | type .. => false
  | _ => true

def report (settings : Settings) (sources : ProjectSources) : Command → Except CommandError Report
  | method className name =>
      .ok (.ofFound (dropLeadingBackslashes className ++ "::" ++ name)
        ((sources.resolver settings.natives).method className name {}))
  | function name =>
      .ok (.ofFound (dropLeadingBackslashes name)
        ((sources.resolver settings.natives).function name {}))
  | classLike name =>
      .ok (.ofFound (dropLeadingBackslashes name)
        ((sources.resolver settings.natives).className name {}))
  | index list => .ok (.index (.of (sources.index settings.natives) list))
  | type text position namespaceName =>
      match TypeHint.parse text.toList with
      | .error causes => .error (.badHint text causes)
      | .ok hint => .ok (.type (.of settings.version text position namespaceName hint))

end Command

namespace Arguments

variable {α : Type} {m : Type → Type} [Monad m]

/-- Answers a command in a working directory, reading files where they are needed. -/
def run (a : Arguments) (s : FileSystem α) (read : FilePath → m (Option ByteArray))
    (here : FilePath) : m (Except CommandError Report) := do
  match ← Settings.load s read here a.project a.version with
  | .error e => return .error (.project e)
  | .ok settings =>
      let files := if a.command.needsSources then settings.query.discover s else []
      let sources ← files.mapM fun p => do return (p, (← read p).bind sourceOfBytes?)
      return a.command.report settings sources

end Arguments

end PhpAtlas
