import PhpAtlas.Tree.Search

/-! # Detached trees

A subtree on its own: its nodes are numbered in the order of a visit, links
that leave it are dropped, and the scopes are kept with their indices.
-/

namespace PhpAtlas.Arena

/-- The node with its links sent through `f`. -/
def relink (f : NodeId → Option NodeId) (n : Node) : Node :=
  { n with payload := n.payload.map (·.bind f), parent := n.parent.bind f }

def relinkPlacement (f : NodeId → Option NodeId) (p : Placement) : Placement :=
  { p with classLike := p.classLike.bind f, function := p.function.bind f }

/-- The subtree under `root` as an arena; its root is the first node, if there is any. -/
def detach (a : Arena) (root : NodeId) : Arena :=
  let order := a.descendants root
  let position (i : NodeId) : Option NodeId := order.idxOf? i
  { nodes := (order.filterMap fun i => (a.node? i).map (relink position)).toArray
    placements := (order.map fun i => relinkPlacement position ((a.placement? i).getD {})).toArray
    scopes := a.scopes }

end PhpAtlas.Arena
