import PhpAtlas.Tree.Arena

/-! # Searching a tree

Nodes are visited with a stack, parents before children and children in source
order. Each search pops one entry per step, and a tree has no more entries
than nodes.
-/

namespace PhpAtlas.Arena

variable (a : Arena)

/-- The nodes that are popped off the stack in `fuel` steps. -/
def walk : Nat → List NodeId → List NodeId
  | 0, _ => []
  | _, [] => []
  | fuel + 1, i :: stack =>
      match a.node? i with
      | none => walk fuel stack
      | some n => i :: walk fuel (n.children ++ stack)

/-- The nodes of the tree under a root. -/
def descendants (root : NodeId) : List NodeId := a.walk (a.size + 1) [root]

/-- The nodes under a root in preorder, down to a depth. -/
def preorder : Nat → NodeId → List NodeId
  | 0, _ => []
  | depth + 1, i =>
      match a.node? i with
      | none => []
      | some n => i :: n.children.flatMap (preorder depth)

/-- The first node for which `p` holds that is popped off the stack in `fuel` steps. -/
def searchFirst (p : NodeId → Node → Bool) : Nat → List NodeId → Option NodeId
  | 0, _ => none
  | _, [] => none
  | fuel + 1, i :: stack =>
      match a.node? i with
      | none => searchFirst p fuel stack
      | some n => if p i n then some i else searchFirst p fuel (n.children ++ stack)

/-- The nodes for which `p` holds that are popped off the stack in `fuel` steps. -/
def searchAll (p : NodeId → Node → Bool) : Nat → List NodeId → List NodeId
  | 0, _ => []
  | _, [] => []
  | fuel + 1, i :: stack =>
      match a.node? i with
      | none => searchAll p fuel stack
      | some n =>
          let found := searchAll p fuel (n.children ++ stack)
          if p i n then i :: found else found

def firstWithinAny? (roots : List NodeId) (p : NodeId → Node → Bool) : Option NodeId :=
  a.searchFirst p (roots.length * (a.size + 1)) roots

def allWithinAny (roots : List NodeId) (p : NodeId → Node → Bool) : List NodeId :=
  a.searchAll p (roots.length * (a.size + 1)) roots

def firstWithin? (root : NodeId) (p : NodeId → Node → Bool) : Option NodeId :=
  a.firstWithinAny? [root] p

def allWithin (root : NodeId) (p : NodeId → Node → Bool) : List NodeId := a.allWithinAny [root] p

def isOfKind (kinds : List NodeKind) (_ : NodeId) (n : Node) : Bool := kinds.contains n.kind

def classLikes (root : NodeId) : List NodeId := a.allWithin root fun _ n => n.kind.isClassLike

end PhpAtlas.Arena
