import LightHeaders.Workspace.Ancestry

set_option autoImplicit false

/-! # Names in scope

A dotted name is resolved from a component in two steps. Its first segment is looked up among the
children of the component and then of each component above it; the nearest one that has such a
child decides. Every further segment has to name a child of what the segments before it found.
What is inside a file is known only once the file is loaded, so a file on the way is loaded first.

A name of one segment that stands for a native function is resolved without any look-up, and notes
the use of its library.

Loading itself resolves names, so the functions here take the action that loads a file as an
argument; `Workspace/Contents.lean` closes the circle.
-/

namespace LightHeaders

open Text

/-- What resolving a name comes to. -/
inductive Resolution where
  | found (target : Target)
  /-- With the name up to the segment that is missing. -/
  | missing (name : String)
deriving DecidableEq, Repr

namespace Workspace

/-- The child with the given name of the nearest component that has one. -/
def nearest? (ws : Workspace) (start : ComponentId) (name : String) : Option ComponentId :=
  (ws.enclosing start).findSome? fun scope => (ws.component scope).child? name

end Workspace

namespace Build

/-- Goes down from `found` by the remaining segments; `read` are the segments behind. -/
def descend (load : ComponentId → Build Unit) (found : ComponentId) (read : List String) :
    List String → Build Resolution
  | [] => return .found (.component found)
  | segment :: rest => do
    if (← get).isFile found then load found
    match (← component found).child? segment with
    | some child => descend load child (read ++ [segment]) rest
    | none => return .missing (glue "." (read ++ [segment]))

/-- Resolves the segments of a dotted name. -/
def lookUpSegments (load : ComponentId → Build Unit) (start : ComponentId) :
    List String → Build Resolution
  | [] => return .missing ""
  | first :: rest => do
    match (← get).nearest? start first with
    | none => return .missing first
    | some found => descend load found [first] rest

/-- The native function that a dotted name stands for, which only a single segment does. -/
def cFunctionOf? : List String → Option CFunction
  | [single] => CFunction.parse? single
  | _ => none

/-- Resolves a dotted name. -/
def lookUpWith (load : ComponentId → Build Unit) (start : ComponentId) (name : String) :
    Build Resolution := do
  let segments := pieces '.' name
  match cFunctionOf? segments with
  | some function => do
    match (← get).fileOf? start with
    | some file => useLibrary file function.library
    | none => pure ()
    return .found (.native function)
  | none => lookUpSegments load start segments

/-- Resolves a dotted name that has to lead somewhere. -/
def targetWith (load : ComponentId → Build Unit) (start : ComponentId) (name : String) :
    Build Target := do
  match ← lookUpWith load start name with
  | .found target => return target
  | .missing path => throw (.unknownName path)

/-- Resolves a dotted name that has to lead to a component. -/
def componentNamedWith (load : ComponentId → Build Unit) (start : ComponentId) (name : String) :
    Build ComponentId := do
  match ← targetWith load start name with
  | .component id => return id
  | .native function => throw (.notComponent function.name)

/-- The component that a dotted name without its last segment leads to, and that segment. -/
def baseWith (load : ComponentId → Build Unit) (start : ComponentId) (name : String) :
    Build (ComponentId × String) := do
  match cutLast? '.' name.toList with
  | none => return (start, name)
  | some (front, last) =>
    return (← componentNamedWith load start (String.ofList front), String.ofList last)

/-- Makes a component where a dotted name says. -/
def addComponentWith (load : ComponentId → Build Unit) (start : ComponentId) (name : String)
    (kind : Kind) (instruction? : Option InstructionId) : Build ComponentId := do
  let (base, last) ← baseWith load start name
  addBelow base last kind instruction?

end Build

end LightHeaders
