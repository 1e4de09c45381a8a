import PhpAtlas.Command.Run

/-! # Command line

The files of the project are listed on standard input, one path a line and
relative to the working directory, as `find .` prints them. Only the files that
the command needs are opened.
-/

namespace PhpAtlas

def readBytes (p : FilePath) : IO (Option ByteArray) := do
  try return some (← IO.FS.readBinFile p.text) catch _ => return none

partial def readLines (input : IO.FS.Stream) (lines : List String) : IO (List String) := do
  let line ← input.getLine
  if line.isEmpty then return lines.reverse
  readLines input (String.ofList (line.toList.filter (· != '\n')) :: lines)

def listedFiles (paths : List String) : FileSystem Unit :=
  paths.foldl (fun s path => s.insert ⟨path⟩ (.file ())) {}

def usage : String :=
  "usage: phpatlas [-p PATH] [--php-version VERSION] [--json] [--no-color] COMMAND\n" ++
  "commands: method CLASS NAME, function NAME, class NAME,\n" ++
  "  type [--kind POSITION] [--namespace NAMESPACE] TYPE, index [--list]"

end PhpAtlas

open PhpAtlas in
def main (args : List String) : IO UInt32 := do
  let some arguments := Arguments.parse? args | do
    IO.eprintln usage
    return 2
  let listed ← readLines (← IO.getStdin) []
  match ← arguments.run (listedFiles listed) readBytes ⟨"."⟩ with
  | .error e =>
      IO.eprintln ("Error: " ++ e.message)
      return 1
  | .ok report =>
      let color := !arguments.plain && (← (← IO.getStdout).isTty)
      IO.print (report.printed arguments.json color)
      return report.exitCode.toUInt32
