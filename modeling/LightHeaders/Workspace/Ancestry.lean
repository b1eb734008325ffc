import LightHeaders.Workspace

set_option autoImplicit false

/-! # Where a component stands

The components around a component: those above it (`enclosing`), the root of its tree (`outermost`), the
file it is in (`fileOf?`), and what follows from them: its names, its language, its project and
its indentation. Below it: whether it is **live**, that is, referred to itself or, for a
container, through something inside it.

A component is made after its parent, so a chain of parents from `id` has at most `id + 1` members
and a chain of children at most as many as there are components from `id` on.
-/

namespace LightHeaders

namespace Workspace

/-! ## Above -/

/-- The component and at most `bound - 1` of those above it, the nearest first. -/
def enclosingWithin (ws : Workspace) : Nat → ComponentId → List ComponentId
  | 0, _ => []
  | bound + 1, id =>
    id :: match (ws.component id).parent? with
      | some parent => ws.enclosingWithin bound parent
      | none => []

/-- The component and those above it, the nearest first. -/
def enclosing (ws : Workspace) (id : ComponentId) : List ComponentId :=
  ws.enclosingWithin (id + 1) id

/-- The root of the tree that a component is in. -/
def outermost (ws : Workspace) (id : ComponentId) : ComponentId := (ws.enclosing id).getLast?.getD id

/-- The nearest file around a component, itself included. -/
def fileOf? (ws : Workspace) (id : ComponentId) : Option ComponentId :=
  (ws.enclosing id).find? ws.isFile

/-- Whether a component opens a C++ scope that names inside it are qualified with. -/
def isQualifier (ws : Workspace) (id : ComponentId) : Bool :=
  (ws.kind id).isContainer && !ws.isFile id

/-- The name of a component as seen from the scope of its file. -/
def qualifiedName (ws : Workspace) (id : ComponentId) : String :=
  let scopes := (ws.enclosing id).tail.takeWhile ws.isQualifier
  Text.glue "::" ((id :: scopes).reverse.map fun a => (ws.component a).name)

/-- The names from the root of its tree down to a component. -/
def dottedPath (ws : Workspace) (id : ComponentId) : String :=
  Text.glue "." ((ws.enclosing id).reverse.map fun a => (ws.component a).name)

/-- The project that owns the tree of a component. -/
def owner? (ws : Workspace) (id : ComponentId) : Option ProjectId :=
  (ws.component (ws.outermost id)).file?.bind SourceFile.project?

/-- The language of the file around a component; Light where none is known. -/
def languageAt (ws : Workspace) (id : ComponentId) : Language :=
  (((ws.fileOf? id).bind fun file => (ws.component file).file?).bind SourceFile.language?).getD
    .light

/-- The levels of indentation that a chain of components, the innermost first, stands for: one for
each step up, until the text is forwarded or the next component is a file. -/
def levels (ws : Workspace) : List ComponentId → Nat
  | id :: parent :: rest =>
    if (ws.component id).forward?.isSome || ws.isFile parent then 0
    else ws.levels (parent :: rest) + 1
  | _ => 0

/-- How deep the text of a component is indented. -/
def depthInFile (ws : Workspace) (id : ComponentId) : Nat := ws.levels (ws.enclosing id)

/-! ## Below -/

/-- Whether a component is live by something at most `bound - 1` levels below it. -/
def liveWithin (ws : Workspace) : Nat → ComponentId → Bool
  | 0, _ => false
  | bound + 1, id =>
    let c := ws.component id
    c.referenced || (c.kind.isContainer && c.childIds.any (ws.liveWithin bound))

/-- Whether a component is live: something refers to it or, for a container, to something inside
it. -/
def isLive (ws : Workspace) (id : ComponentId) : Bool := ws.liveWithin (ws.size - id) id

end Workspace

end LightHeaders
