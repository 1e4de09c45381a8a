import PhpAtlas.Tree.Search

/-! # Decoration

Places every node of a tree: the scope that it is in, the class-like and the
function around it, and the full names of declarations and of references. A
file or a namespace opens a region whose scope has the imports directly in it.
-/

namespace PhpAtlas

/-- What holds at a place of the tree. -/
structure Context where
  scopeId : Option Nat := none
  scope : Scope := {}
  classLike : Option NodeId := none
  function : Option NodeId := none
  className : Option String := none
  parentClassName : Option String := none
  deriving Repr, Inhabited

namespace Context

def placement (c : Context) (fullName : Option String) : Placement :=
  ⟨c.scopeId, c.classLike, c.function, c.className, c.parentClassName, fullName⟩

end Context

namespace Scope

def addImport (form : ImportForm) (s : Scope) (i : Import) : Scope :=
  let key := lower i.localName
  match form with
  | .classLike => { s with classImports := s.classImports.insert key i.name }
  | .function => { s with functionImports := s.functionImports.insert key i.name }
  | .constant => s

end Scope

namespace Arena

/-- The statements directly in a file or a namespace. -/
def regionStatements (a : Arena) (i : NodeId) : List NodeId :=
  match a.payload? i with
  | some (.sourceFile statements) => statements.filterMap id
  | some (.namespaceBlock _ statements _) => statements.filterMap id
  | _ => []

/-- The scope of a region with the given namespace. -/
def regionScope (a : Arena) (region : NodeId) (namespaceName : Option String) : Scope :=
  (a.regionStatements region).foldl
    (fun s i =>
      match a.payload? i with
      | some (.imports form items) => items.foldl (Scope.addImport form) s
      | _ => s)
    { namespaceName }

def enterScope (a : Arena) (scope : Scope) (outer : Context) : Context × Arena :=
  let (id, a) := a.internScope scope
  ({ outer with scopeId := some id, scope }, a)

/-- What `self`, `static`, `parent` or a class name refers to. -/
def resolveReference (c : Context) (n : WrittenName) : Option String :=
  if n.isRelative then
    if sameName n.text "parent" then c.parentClassName else c.className
  else some (c.scope.resolveClass n)

/-- What a name refers to, by the place that it has in its parent; constants stay unresolved. -/
def resolveName (a : Arena) (c : Context) (i : NodeId) (parent : Option NodeId) (n : WrittenName) :
    Option String := do
  match ← a.payload? (← parent) with
  | .call .function target _ _ _ =>
      if target = some i then some (c.scope.resolveFunction n) else none
  | .call _ target _ _ _ => if target = some i then resolveReference c n else none
  | .access .element _ _ _ => none
  | .access _ target _ _ => if target = some i then resolveReference c n else none
  | .newObject classRef _ => if classRef = some i then resolveReference c n else none
  | .binary _ operator right =>
      if operator = "instanceof" ∧ right = some i then resolveReference c n else none
  | .classLike .. | .traitUse _ => resolveReference c n
  | _ => none

/-- The full name of the first class that a class extends. -/
def parentName (a : Arena) (c : Context) (parents : List (Option NodeId)) : Option String := do
  match ← a.payload? (← ← parents.head?) with
  | .name n => some (c.scope.resolveClass n)
  | _ => none

/-- The context inside of a node, and the full name of the node itself. -/
def enterNode (a : Arena) (c : Context) (i : NodeId) (n : Node) :
    (Context × Option String) × Arena :=
  match n.payload with
  | .namespaceBlock name _ _ =>
      let (inner, a) := a.enterScope (a.regionScope i name) c
      ((inner, none), a)
  | .classLike form d =>
      let className := (d.name.bind a.identifier?).map c.scope.qualify
      let parentClassName := if form = .ordinary then a.parentName c d.parents else none
      (({ c with classLike := some i, function := none, className, parentClassName }, className), a)
  | .function form d =>
      let name := (d.name.bind a.identifier?).map c.scope.qualify
      (({ c with function := some i }, if form = .function then name else none), a)
  | .name name => ((c, a.resolveName c i n.parent name), a)
  | _ => ((c, none), a)

/-- Places the nodes under `i`, down to a depth. -/
def place : Nat → Context → NodeId → Arena → Arena
  | 0, _, _, a => a
  | depth + 1, c, i, a =>
      match a.node? i with
      | none => a
      | some n =>
          let ((inner, fullName), a) := a.enterNode c i n
          let placements := a.placements.setIfInBounds i (inner.placement fullName)
          n.children.foldl (fun a child => place depth inner child a) { a with placements }

/-- The arena without any decoration. -/
def undecorated (a : Arena) : Arena :=
  { a with placements := a.placements.map fun _ => {}, scopes := #[] }

/-- Decorates the tree under `root` and nothing else. -/
def decorate (a : Arena) (root : Option NodeId) : Arena :=
  let bare := a.undecorated
  let scope := (root.map (bare.regionScope · none)).getD {}
  let (c, opened) := bare.enterScope scope {}
  match root with
  | some i => place bare.size c i opened
  | none => opened

end Arena

end PhpAtlas
