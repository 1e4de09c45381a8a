import PhpAtlas.Grammar.Statement
import PhpAtlas.Tree.Decorate

/-! # Parsed sources

Every text has a tree; a text without diagnostics is in the language that the
grammar covers.
-/

namespace PhpAtlas

/-- The tree of a source with its root, and what is wrong with the source. -/
structure Parsed where
  arena : Arena
  root : NodeId
  diagnostics : List Diagnostic
  deriving Repr

open Grammar in
def Parsed.ofSource (source : List Char) : Parsed :=
  match (sourceFile (bound source.length)).run { stream := .ofSource source } with
  | some (root, s) => ⟨s.arena, root, s.diagnostics.toList⟩
  | none => ⟨{}, 0, []⟩

namespace Parsed

/-- The same tree with its decoration. -/
def decorated (p : Parsed) : Parsed := { p with arena := p.arena.decorate (some p.root) }

end Parsed

end PhpAtlas
