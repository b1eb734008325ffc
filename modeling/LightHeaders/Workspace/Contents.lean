import LightHeaders.Outline
import LightHeaders.Prototype
import LightHeaders.Workspace.Scope

set_option autoImplicit false

/-! # The contents of a file

The contents of a file are made when they are first asked for: its source is read into
instructions, and each instruction becomes a component where it stands (`readTrees`). A file is
marked as loaded before its source is read, so a name that leads back into it while it is being
read finds what is there so far, and no source is read twice.

A declaration with a dotted name stands below the component that the front of the name leads to,
which can be in another file and load it. Each file loads at most once, so loads inside one
another are never deeper than there are files that are not loaded (`load`).
-/

namespace LightHeaders

namespace Build

/-! ## Instructions into components -/

/-- The failure of an instruction that cannot stand in a component. -/
def refuse {α : Type} (id : ComponentId) (op : String) : Build α := do
  let c ← component id
  throw (.notPermitted op c.kind.describe c.name)

/-- Makes the component of an instruction below `id`, with the instruction's settings. -/
def declare (load : ComponentId → Build Unit) (id : ComponentId) (source : InstructionId)
    (i : Instruction) (kind : Kind) : Build ComponentId := do
  let child ← addComponentWith load id i.name kind (some source)
  update child fun c => { c with settings := c.settings ++ i.attributes }
  return child

/-- Makes the member that an instruction declares. Its first child holds its first value. -/
def declareMember (load : ComponentId → Build Unit) (id : ComponentId) (source : InstructionId)
    (i : Instruction) (isParam : Bool) : Build ComponentId := do
  match i.type? with
  | none => throw (.untyped i.name)
  | some type =>
    declare load id source i (.member { type, isParam, value? := i.children.head? })

/-- Makes the parameter that an instruction declares, as the last one of a function. -/
def declareParam (load : ComponentId → Build Unit) (id : ComponentId) (source : InstructionId)
    (i : Instruction) : Build Unit := do
  let param ← declareMember load id source i true
  update id fun c =>
    match c.kind with
    | .function s => { c with kind := .function { s with params := s.params ++ [param] } }
    | _ => c

/-- Makes an operation of a function, named for its position. -/
def addOperation (id : ComponentId) (source : InstructionId) (i : Instruction)
    (action : Action) : Build Unit := do
  let position := (← component id).childIds.length
  let child ← addBelow id (i.op ++ "#" ++ toString position) (.operation { action }) (some source)
  update child fun c => { c with settings := c.settings ++ i.attributes }

/-- What an instruction in a file, namespace or class makes a component with a body of. -/
def containerKind? (i : Instruction) : Option Kind :=
  match i.op with
  | "namespace" => some .space
  | "class" => some .classType
  | "struct" => some .structType
  | "function" => some (.function { result? := i.type? })
  | _ => none

/-- The action of an operation in the body of a function. -/
def action? (i : Instruction) : Option Action :=
  match i.op with
  | "call" => some (.call i.name)
  | "assign" => some (.assign i.name)
  | "return" => some .giveBack
  | _ => none

/-- Moves a function out of the function around it: C++ has none inside another, so its text goes
to the scope of the file. -/
def lift (id nested : ComponentId) : Build Unit := do
  match (← get).fileOf? id with
  | some file => forward nested file
  | none => pure ()

mutual

/-- Makes the component of one instruction and of those below it. -/
def readTree (load : ComponentId → Build Unit) (id : ComponentId) : InstructionTree → Build Unit
  | .node source i body => do
    match (← component id).kind with
    | .file _ | .space | .classType =>
      match containerKind? i with
      | some kind => do
        let child ← declare load id source i kind
        readTrees load child body
      | none =>
        if i.op = "declare" then discard <| declareMember load id source i false
        else refuse id i.op
    | .structType =>
      if i.op = "declare" then discard <| declareMember load id source i false
      else refuse id i.op
    | .function _ =>
      match action? i with
      | some action => addOperation id source i action
      | none =>
        if i.op = "param" then declareParam load id source i
        else if i.op = "declare" then discard <| declareMember load id source i false
        else if i.op = "function" then do
          let nested ← declare load id source i (.function { result? := i.type? })
          readTrees load nested body
          lift id nested
        else refuse id i.op
    | .member _ | .operation _ => refuse id i.op

/-- Makes the components of instructions in order. -/
def readTrees (load : ComponentId → Build Unit) (id : ComponentId) :
    List InstructionTree → Build Unit
  | [] => pure ()
  | t :: ts => do
    readTree load id t
    readTrees load id ts

end

/-! ## Loading -/

/-- Adds the instructions of a source; none if it cannot be read. -/
def addSource? (language : Language) (source : String) : Build (Option InstructionId) := do
  let forest := (← get).forest
  match language with
  | .cpp =>
    let (forest, root) := Header.read source forest
    updateForest fun _ => forest
    return some root
  | .light =>
    let (forest, result) := Outline.parse source forest
    updateForest fun _ => forest
    return result.toOption

/-- Reads the source of a file component and makes its contents. -/
def readSource (load : ComponentId → Build Unit) (id : ComponentId) (path : Path) :
    Build Unit := do
  match Language.ofPath? path with
  | none => throw (.unknownLanguage path)
  | some language =>
    needReader language
    record (.opened id)
    let source ← ask (·.readText path) (.unusable path)
    match ← addSource? language source with
    -- the instructions before the line that cannot be read stay in the forest
    | none => throw (.malformedSource path)
    | some root =>
      update id fun c => { c with instruction? := some root }
      updateFile id fun f => { f with language? := some language }
      readTrees load id ((← get).forest.body root)

/-- Makes the contents of a file that is not loaded, with `load` for the files met on the way. -/
def loadWith (load : ComponentId → Build Unit) (id : ComponentId) : Build Unit := do
  match (← component id).file? with
  | none => pure ()
  | some file =>
    if file.loaded then pure ()
    else
      -- before the source is read: a name in it can lead back to this file
      updateFile id fun f => { f with loaded := true }
      if file.isDirectory then pure () else readSource load id file.path

/-- Loads a file, with at most `depth` loads inside one another below it. -/
def loadWithin : Nat → ComponentId → Build Unit
  | 0, id => loadWith (fun _ => pure ()) id
  | depth + 1, id => loadWith (loadWithin depth) id

end Build

/-- How many files are not loaded. -/
def Workspace.unloaded (ws : Workspace) : Nat :=
  ws.components.toList.countP fun c => c.file?.any (!·.loaded)

namespace Build

/-- Makes the contents of a file the first time it is asked for. -/
def load (id : ComponentId) : Build Unit := do loadWithin (← get).unloaded id

/-! ## Resolving with loading -/

/-- Resolves a dotted name; what it leads to, or the part of it that leads nowhere. -/
def lookUp (start : ComponentId) (name : String) : Build Resolution := lookUpWith load start name

/-- Resolves a dotted name that has to lead somewhere. -/
def targetNamed (start : ComponentId) (name : String) : Build Target := targetWith load start name

/-- Resolves a dotted name if it leads somewhere. -/
def targetNamed? (start : ComponentId) (name : String) : Build (Option Target) := do
  match ← lookUp start name with
  | .found target => return some target
  | .missing _ => return none

/-- Resolves a dotted name that has to lead to a component. -/
def componentNamed (start : ComponentId) (name : String) : Build ComponentId :=
  componentNamedWith load start name

/-- The component that a dotted name without its last segment leads to, and that segment. -/
def base (start : ComponentId) (name : String) : Build (ComponentId × String) :=
  baseWith load start name

/-- Makes a component where a dotted name says. -/
def addComponent (start : ComponentId) (name : String) (kind : Kind)
    (instruction? : Option InstructionId) : Build ComponentId :=
  addComponentWith load start name kind instruction?

/-- The component that a dotted name says, if it has been made. -/
def findComponent? (start : ComponentId) (name : String) : Build (Option ComponentId) := do
  let (base, last) ← base start name
  return (← component base).child? last

end Build

end LightHeaders
