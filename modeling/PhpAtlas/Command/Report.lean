import PhpAtlas.Files.FilePath
import PhpAtlas.Json.Printer
import PhpAtlas.Resolve.Cache

/-! # Reports

The result of a command, as text for a terminal or as JSON.
-/

namespace PhpAtlas

structure DeclarationSummary where
  symbol : String
  path : FilePath
  span : Span
  className : Option String
  text : String
  usage : Usage
  deriving Repr

structure TypeSummary where
  text : String
  position : String
  semantic : String
  shape : String
  /-- The type in a doc comment. -/
  doc : Option String
  /-- The type in a declaration, which may have none there. -/
  native : Option String
  error : Option String
  deriving DecidableEq, Repr

structure IndexSummary where
  files : Nat
  skipped : List FilePath
  classes : Nat
  functions : Nat
  /-- The names are listed on request only. -/
  classNames : List String
  functionNames : List String
  deriving DecidableEq, Repr

inductive Report
  | declaration (d : DeclarationSummary)
  | notFound (symbol : String)
  | type (t : TypeSummary)
  | index (x : IndexSummary)
  deriving Repr

/-! ## Colors -/

inductive Style
  | path
  | label
  | error
  | warning
  deriving DecidableEq, Repr

namespace Style

/-- The number that selects the style on a terminal. -/
def code : Style → String
  | path => "36"
  | label => "1"
  | error => "1;31"
  | warning => "33"

def start (s : Style) : String := "\x1b[" ++ s.code ++ "m"

def reset : String := "\x1b[0m"

/-- Starts the style again after each reset in a text. -/
def restart (start : List Char) : List Char → List Char
  | '\x1b' :: '[' :: '0' :: 'm' :: cs => reset.toList ++ start ++ restart start cs
  | c :: cs => c :: restart start cs
  | [] => []

def paint (s : Style) (color : Bool) (text : String) : String :=
  if color then s.start ++ String.ofList (restart s.start.toList text.toList) ++ reset else text

end Style

/-! ## Text -/

/-- The text with blanks before it up to a width. -/
def padLeft (width : Nat) (s : String) : String :=
  String.ofList (List.replicate (width - s.length) ' ') ++ s

def row (color : Bool) (label value : String) : String :=
  Style.label.paint color (padLeft 9 label) ++ " " ++ value ++ "\n"

namespace DeclarationSummary

def location (d : DeclarationSummary) : String :=
  d.path.text ++ ":" ++ toString d.span.start ++ "-" ++ toString d.span.stop

def render (color : Bool) (d : DeclarationSummary) : String :=
  Style.path.paint color d.location ++ ((d.className.map fun c => " (" ++ c ++ ")").getD "") ++
    "\n" ++ d.text ++ "\n"

def json (d : DeclarationSummary) : Json :=
  .record
    [("kind", .text "declaration"), ("symbol", .text d.symbol), ("path", .text d.path.text),
      ("span", .record [("start", .nat d.span.start), ("end", .nat d.span.stop)]),
      ("className", .text? d.className), ("text", .text d.text),
      ("stats", .record
        [("files_read", .nat d.usage.filesRead), ("files_parsed", .nat d.usage.filesParsed),
          ("cache_hits", .nat d.usage.hits), ("negative_hits", .nat d.usage.negativeHits),
          ("cache_misses", .nat d.usage.misses)])]

end DeclarationSummary

namespace TypeSummary

def render (color : Bool) (t : TypeSummary) : String :=
  row color "semantic" t.semantic ++ row color "shape" t.shape ++ row color "position" t.position ++
    ((t.doc.map (row color "phpdoc")).getD "") ++ row color "native" (t.native.getD "(none)") ++
    ((t.error.map fun e => Style.error.paint color "error:" ++ " " ++ e ++ "\n").getD "")

def json (t : TypeSummary) : Json :=
  .record
    [("kind", .text "type"), ("annotation", .text t.text), ("position", .text t.position),
      ("semantic", .text t.semantic), ("shape", .text t.shape), ("doc", .text? t.doc),
      ("native", .text? t.native), ("error", .text? t.error)]

end TypeSummary

namespace IndexSummary

def skippedLine (color : Bool) (p : FilePath) : String :=
  Style.warning.paint color "skipped:" ++ " " ++ p.text ++ "\n"

def render (color : Bool) (x : IndexSummary) : String :=
  row color "files" (toString x.files) ++ row color "classes" (toString x.classes) ++
    row color "functions" (toString x.functions) ++
    joinWith "" (x.skipped.map (skippedLine color)) ++
    joinWith "" ((x.classNames ++ x.functionNames).map fun n => "  " ++ n ++ "\n")

def json (x : IndexSummary) : Json :=
  .record
    [("kind", .text "index"), ("files", .nat x.files),
      ("skippedFiles", .texts (x.skipped.map FilePath.text)), ("classes", .nat x.classes),
      ("functions", .nat x.functions), ("classNames", .texts x.classNames),
      ("functionNames", .texts x.functionNames)]

end IndexSummary

namespace Report

def succeeded : Report → Bool
  | notFound _ => false
  | _ => true

def render (color : Bool) : Report → String
  | declaration d => d.render color
  | notFound symbol => Style.error.paint color "not found:" ++ " " ++ symbol
  | type t => t.render color
  | index x => x.render color

def json : Report → Json
  | declaration d => d.json
  | notFound symbol => .record [("kind", .text "notFound"), ("symbol", .text symbol)]
  | type t => t.json
  | index x => x.json

/-- What a command prints. -/
def printed (asJson color : Bool) (r : Report) : String :=
  if asJson then r.json.print ++ "\n" else r.render color ++ (if r.succeeded then "" else "\n")

def exitCode (r : Report) : Nat := if r.succeeded then 0 else 1

end Report

end PhpAtlas
