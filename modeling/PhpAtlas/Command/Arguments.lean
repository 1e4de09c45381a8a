import PhpAtlas.Files.FilePath
import PhpAtlas.Mapping.Registry

/-! # Command line arguments

A command with its operands and options. The general options may stand before
and after the command's name; given in both places, the later one counts. An
option is given at most once in one place, and two dashes end the options.
-/

namespace PhpAtlas

/-- What is asked for. -/
inductive Command
  | method (className name : String)
  | function (name : String)
  | classLike (name : String)
  | type (text : String) (position : Position) (namespaceName : Option String)
  | index (list : Bool)
  deriving DecidableEq, Repr

structure Arguments where
  project : Option FilePath
  version : Option Version
  json : Bool
  plain : Bool
  command : Command
  deriving DecidableEq, Repr

namespace Arguments

/-- The names of options. -/
inductive Flag
  | project
  | version
  | json
  | plain
  | position
  | namespaceName
  | list
  deriving DecidableEq, Repr

namespace Flag

def text : Flag → String
  | project => "project"
  | version => "php-version"
  | json => "json"
  | plain => "no-color"
  | position => "kind"
  | namespaceName => "namespace"
  | list => "list"

def takesValue : Flag → Bool
  | json | plain | list => false
  | _ => true

end Flag

/-- The options of every command. -/
def general : List Flag := [.project, .version, .json, .plain]

/-- The commands with their own options and the number of their operands. -/
def commands : List (String × List Flag × Nat) :=
  [("method", [], 2), ("function", [], 1), ("class", [], 1),
    ("type", [.position, .namespaceName], 1), ("index", [.list], 0)]

def positions : List Position := [.property, .param, .result, .anywhere]

def readPosition? (s : String) : Option Position := positions.find? (·.name == s)

/-- Whether an option takes the value. -/
def accepts (flag : Flag) (value : String) : Bool :=
  match flag with
  | .project => !value.isEmpty
  | .version => (Version.read? value).isSome
  | .position => (readPosition? value).isSome
  | _ => true

/-- What was given in one place: options with their values, and operands. -/
structure Given where
  options : List (Flag × String) := []
  operands : List String := []

namespace Given

def add? (g : Given) (flag : Flag) (value : String) : Option Given :=
  if accepts flag value && (g.options.lookup flag).isNone then
    some { g with options := g.options ++ [(flag, value)] }
  else none

def addOperand (g : Given) (s : String) : Given := { g with operands := g.operands ++ [s] }

def has (g : Given) (flag : Flag) : Bool := (g.options.lookup flag).isSome

end Given

/-- What one argument is. -/
inductive Word
  | operand (s : String)
  | endOfOptions
  | option (name : String) (value : Option String)

/-- A long option, or `-p` for the project; a value may follow at once. -/
def Word.ofText (s : String) : Word :=
  match s.toList with
  | ['-', '-'] => .endOfOptions
  | '-' :: '-' :: cs =>
      match cs.span (· != '=') with
      | (name, []) => .option (String.ofList name) none
      | (name, _ :: value) => .option (String.ofList name) (some (String.ofList value))
  | ['-', 'p'] => .option Flag.project.text none
  | '-' :: 'p' :: '=' :: value | '-' :: 'p' :: value =>
      .option Flag.project.text (some (String.ofList value))
  | ['-'] => .operand s
  | '-' :: cs => .option ("-" ++ String.ofList cs) none
  | _ => .operand s

/-- Reads what is given in one place; at the front it ends before the command's name. An option
may wait for its value. -/
def read? (allowed : List Flag) (front : Bool) :
    Option Flag → Given → List String → Option (Given × List String)
  | none, g, [] => some (g, [])
  | some _, _, [] => none
  | some flag, g, arg :: args =>
      match Word.ofText arg with
      | .operand value => (g.add? flag value).bind fun g => read? allowed front none g args
      | _ => none
  | none, g, arg :: args =>
      match Word.ofText arg with
      | .endOfOptions =>
          if front then none else some ({ g with operands := g.operands ++ args }, [])
      | .operand s =>
          if front then some (g, arg :: args) else read? allowed front none (g.addOperand s) args
      | .option name value =>
          match allowed.find? (·.text == name), value with
          | none, _ => none
          | some flag, some value =>
              if flag.takesValue then
                (g.add? flag value).bind fun g => read? allowed front none g args
              else none
          | some flag, none =>
              if flag.takesValue then read? allowed front (some flag) g args
              else (g.add? flag "").bind fun g => read? allowed front none g args

/-- The command of a name with what was given to it. -/
def command? (name : String) (g : Given) : Option Command :=
  match name, g.operands with
  | "method", [className, method] => some (.method className method)
  | "function", [name] => some (.function name)
  | "class", [name] => some (.classLike name)
  | "type", [text] =>
      let position := ((g.options.lookup .position).bind readPosition?).getD .anywhere
      some (.type text position (g.options.lookup .namespaceName))
  | "index", [] => some (.index (g.has .list))
  | _, _ => none

/-- The arguments that the texts are, if they are well-formed. -/
def parse? (args : List String) : Option Arguments := do
  let (before, rest) ← read? general true none {} args
  let name :: rest := rest | none
  let (own, _) ← commands.lookup name
  let (after, _) ← read? (general ++ own) false none {} rest
  let command ← command? name after
  let value? (flag : Flag) := after.options.lookup flag <|> before.options.lookup flag
  return {
    project := (value? .project).map FilePath.mk
    version := (value? .version).bind Version.read?
    json := before.has .json || after.has .json
    plain := before.has .plain || after.has .plain
    command }

end Arguments

end PhpAtlas
