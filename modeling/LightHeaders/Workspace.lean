import LightHeaders.Failure
import LightHeaders.Project

set_option autoImplicit false

/-! # The workspace

A **workspace** holds everything that is built: the components, their instructions, the projects,
the output paths that projects have taken, and the disk. Work on it is a `Build`: it changes the
workspace and gives a result or a `Failure`. A failure does not take back what was done before it.

Each primitive of this file changes one component, the instructions or the disk, and nothing else.
What cannot be told from these afterwards, that a source was opened or a header begun, is put down
in a **journal**. Nothing reads the journal.
-/

namespace LightHeaders

/-- What is put down in the journal. -/
inductive Event where
  /-- The source of a file is opened, to be read. -/
  | opened (file : ComponentId)
  /-- The text of the header of a file is begun. -/
  | begun (file : ComponentId)
deriving DecidableEq, Repr

/-- Everything that is built, and the disk it is built from and onto. -/
structure Workspace where
  disk : Disk := .empty
  components : Array Component := #[]
  forest : Forest := {}
  /-- The languages that can be read. -/
  readers : List Language := [.light, .cpp]
  projects : Array Project := #[]
  /-- The project whose output is being made. -/
  active? : Option ProjectId := none
  /-- The output paths in use, with the project that took each first. -/
  taken : List (Path × ProjectId) := []
  /-- Whether declarations that nothing refers to are left out. -/
  omitUnreferenced : Bool := false
  /-- What happened to sources and headers, in order. -/
  journal : List Event := []

/-- Work on a workspace. The changes made before a failure stay. -/
abbrev Build := EStateM Failure Workspace

namespace Workspace

/-- How many components there are. -/
def size (ws : Workspace) : Nat := ws.components.size

/-- The component with the given number. -/
def component (ws : Workspace) (id : ComponentId) : Component := ws.components.getD id default

/-- The kind of a component. -/
def kind (ws : Workspace) (id : ComponentId) : Kind := (ws.component id).kind

/-- Whether a component is a file. -/
def isFile (ws : Workspace) (id : ComponentId) : Bool := (ws.kind id).isFile

/-- The workspace with one component changed. -/
def modify (ws : Workspace) (id : ComponentId) (g : Component → Component) : Workspace :=
  { ws with components := ws.components.modify id g }

/-- The workspace with a component added at the end. -/
def add (ws : Workspace) (c : Component) : Workspace :=
  { ws with components := ws.components.push c }

/-- The project with the given number. -/
def project (ws : Workspace) (id : ProjectId) : Project := ws.projects.getD id default

/-! ## What is where -/

@[simp] theorem size_modify (ws : Workspace) (id : ComponentId) (g : Component → Component) :
    (ws.modify id g).size = ws.size := by
  simp [modify, size]

@[simp] theorem size_add (ws : Workspace) (c : Component) : (ws.add c).size = ws.size + 1 := by
  simp [add, size]

/-- The component just added has the next number. -/
theorem component_add_size (ws : Workspace) (c : Component) :
    (ws.add c).component ws.size = c := by
  simp [add, component, size]

theorem component_modify (ws : Workspace) (id : ComponentId) (g : Component → Component)
    {other : ComponentId} (h : other < ws.size) :
    (ws.modify id g).component other =
      if id = other then g (ws.component other) else ws.component other := by
  unfold size at h
  simp [modify, component, Array.getElem_modify, h]

end Workspace

namespace Build

/-! ## Components -/

/-- The component with the given number. -/
def component (id : ComponentId) : Build Component := return (← get).component id

/-- Changes a component. -/
def update (id : ComponentId) (g : Component → Component) : Build Unit :=
  modify fun ws => ws.modify id g

/-- Changes a component that is a file, and no other. -/
def updateFile (id : ComponentId) (g : SourceFile → SourceFile) : Build Unit :=
  update id fun c => { c with kind := c.kind.mapFile g }

/-- Makes a component without a parent. -/
def addRoot (name : String) (kind : Kind) : Build ComponentId := do
  let id := (← get).size
  modify fun ws => ws.add { name, kind }
  return id

/-- Makes a component below `parent`, in the place of a child of the same name if there is one. -/
def addBelow (parent : ComponentId) (name : String) (kind : Kind)
    (instruction? : Option InstructionId) : Build ComponentId := do
  let id := (← get).size
  modify fun ws => ws.add { name, kind, parent? := some parent, instruction? }
  update parent fun c => c.addChild name id
  return id

/-- Notes that something refers to a component. -/
def markReferenced (id : ComponentId) : Build Unit := update id fun c => { c with referenced := true }

/-- Sends the text of a component on to `target`. -/
def forward (id target : ComponentId) : Build Unit :=
  update id fun c => { c with forward? := some target }

/-- Notes that a file uses a native library. -/
def useLibrary (file : ComponentId) (library : String) : Build Unit :=
  updateFile file fun f =>
    if f.libraries.contains library then f else { f with libraries := f.libraries ++ [library] }

/-! ## Instructions -/

/-- The instruction with the given number. -/
def instruction (id : InstructionId) : Build Instruction := return (← get).forest.get id

/-- Changes the instructions. -/
def updateForest (g : Forest → Forest) : Build Unit :=
  modify fun ws => { ws with forest := g ws.forest }

/-! ## The disk -/

/-- Asks the disk; a fault becomes a failure. -/
def ask {α : Type} (query : Disk → Except Fault α) (failure : Fault → Failure) : Build α := do
  match query (← get).disk with
  | .ok a => return a
  | .error fault => throw (failure fault)

/-- Changes the disk; a fault becomes a failure and leaves it as it is. -/
def change (write : Disk → Except Fault Disk) (failure : Fault → Failure) : Build Unit := do
  let disk ← ask write failure
  modify fun ws => { ws with disk }

/-! ## The journal -/

/-- Puts down what happens. -/
def record (e : Event) : Build Unit := modify fun ws => { ws with journal := ws.journal ++ [e] }

/-! ## Languages -/

/-- Fails if no reader is registered for a language. -/
def needReader (language : Language) : Build Unit := do
  if !(← get).readers.contains language then throw (.noReader language)

end Build

end LightHeaders
