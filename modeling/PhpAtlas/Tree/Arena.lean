import PhpAtlas.Span
import PhpAtlas.Tree.Payload
import PhpAtlas.Tree.Scope

/-! # Arenas

The nodes of a tree stand in an array in the order in which they were
finished, and refer to each other by index. Beside them stand where each node
is placed among the declarations and the scopes of the file.
-/

namespace PhpAtlas

abbrev NodeId := Nat

structure Node where
  payload : Payload (Option NodeId)
  start : Nat
  stop : Nat
  parent : Option NodeId
  deriving Repr

namespace Node

def kind (n : Node) : NodeKind := n.payload.kind

def span (n : Node) : Span := ⟨n.start, n.stop⟩

def children (n : Node) : List NodeId := n.payload.slots.filterMap id

end Node

/-- The scope and the declarations around a node; those of a declaration are its own. -/
structure Placement where
  scope : Option Nat := none
  classLike : Option NodeId := none
  function : Option NodeId := none
  className : Option String := none
  parentClassName : Option String := none
  /-- The full name of a declaration, or what a name refers to. -/
  fullName : Option String := none
  deriving DecidableEq, Repr, Inhabited

structure Arena where
  nodes : Array Node := #[]
  placements : Array Placement := #[]
  scopes : Array Scope := #[]
  deriving Repr, Inhabited

namespace Arena

def size (a : Arena) : Nat := a.nodes.size

def node? (a : Arena) (i : NodeId) : Option Node := a.nodes[i]?

def payload? (a : Arena) (i : NodeId) : Option (Payload (Option NodeId)) :=
  (a.node? i).map Node.payload

def kind? (a : Arena) (i : NodeId) : Option NodeKind := (a.node? i).map Node.kind

def placement? (a : Arena) (i : NodeId) : Option Placement := a.placements[i]?

/-- The children in source order. -/
def children (a : Arena) (i : NodeId) : List NodeId := ((a.node? i).map Node.children).getD []

def setParent (parent : NodeId) (nodes : Array Node) (child : NodeId) : Array Node :=
  nodes.modify child fun n => { n with parent := some parent }

/-- Appends a node and makes it the parent of its children. -/
def add (a : Arena) (payload : Payload (Option NodeId)) (start stop : Nat) : NodeId × Arena :=
  let node : Node := ⟨payload, start, stop, none⟩
  let i := a.nodes.size
  let nodes := node.children.foldl (setParent i) (a.nodes.push node)
  (i, { a with nodes, placements := a.placements.push {} })

/-- The scope's index, which is new only if no equal scope is there. -/
def internScope (a : Arena) (scope : Scope) : Nat × Arena :=
  match a.scopes.toList.idxOf? scope with
  | some id => (id, a)
  | none => (a.scopes.size, { a with scopes := a.scopes.push scope })

def scopeAt? (a : Arena) (i : NodeId) : Option Scope := do
  let id ← (← a.placement? i).scope
  a.scopes[id]?

def identifier? (a : Arena) (i : NodeId) : Option String :=
  match a.payload? i with
  | some (.identifier text) => some text
  | _ => none

/-- The name of a plain variable. -/
def variableName? (a : Arena) (i : NodeId) : Option String :=
  match a.payload? i with
  | some (.variable name _) => name
  | _ => none

/-- The short name of a class-like or a function. -/
def declaredName? (a : Arena) (i : NodeId) : Option String :=
  match a.payload? i with
  | some (.classLike _ d) => d.name.bind a.identifier?
  | some (.function _ d) => d.name.bind a.identifier?
  | _ => none

def fullName? (a : Arena) (i : NodeId) : Option String :=
  (a.placement? i).bind Placement.fullName

/-- Whether the node declares a method with the name. -/
def declaresMethod (a : Arena) (name : String) (i : NodeId) : Bool :=
  a.kind? i == some .methodDeclaration && (a.declaredName? i).any (sameName name)

/-- The first method with the name among the members of a class-like. -/
def memberMethod? (a : Arena) (classLike : NodeId) (name : String) : Option NodeId :=
  match a.payload? classLike with
  | some (.classLike _ d) => (d.members.filterMap id).find? (a.declaresMethod name)
  | _ => none

/-- The expression inside of at most `fuel` pairs of parentheses. -/
def unwrap (a : Arena) : Nat → NodeId → Option NodeId
  | 0, i => some i
  | fuel + 1, i =>
      match a.payload? i with
      | some (.parenthesized inner) => inner.bind (a.unwrap fuel)
      | _ => some i

/-- The expression inside of the parentheses around it. -/
def unparenthesized? (a : Arena) (i : NodeId) : Option NodeId := a.unwrap a.size i

end Arena

end PhpAtlas
