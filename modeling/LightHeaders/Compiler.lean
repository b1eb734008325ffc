import LightHeaders.Settings
import LightHeaders.Workspace.Headers
import LightHeaders.Workspace.Skeleton

set_option autoImplicit false

/-! # Compiling a source

Compiling makes headers of one Light source, the **entry**, and of every source it depends on.
The entry belongs to the innermost registered project around it; where there is none, its
directory is registered as a project. The function `main` of an entry counts as referred to.
-/

namespace LightHeaders

/-- What compiling an entry gives. -/
structure Compiled where
  project : ProjectId
  /-- The path of the header, as it is spelled in includes. -/
  path : String
  /-- The text of the header. -/
  text : String
deriving DecidableEq, Repr

/-- The function of an entry that counts as referred to. -/
def mainName : String := "main"

namespace Workspace

/-- An empty workspace. -/
def new (settings : Settings) (disk : Disk) (readers : List Language) : Workspace :=
  { disk, readers, omitUnreferenced := settings.omitUnreferenced }

/-- The better of two projects around a path: the one with the longer root, and of two with equal
roots the later one. -/
def innerProject (ws : Workspace) (best? : Option ProjectId) (id : ProjectId) : ProjectId :=
  match best? with
  | none => id
  | some best =>
    if (ws.project id).root.parts.length < (ws.project best).root.parts.length then best else id

/-- The innermost project around a path. -/
def projectAround? (ws : Workspace) (p : Path) : Option ProjectId :=
  ((List.range ws.projects.size).filter fun id => p.isBelow (ws.project id).root).foldl
    (fun best? id => some (ws.innerProject best? id)) none

end Workspace

namespace Build

/-- The absolute form of a path that the caller gave. -/
def absoluteArgument (p : Path) : Build Path := do
  match Path.absolute? (← get).disk.current p with
  | some q => return q
  | none => throw (.badArgument p .emptyPath)

/-- Registers a directory as a project. -/
def openProject (settings : Settings) (name : String) (root : Path) : Build ProjectId := do
  let root ← absoluteArgument root
  registerProject name root settings.outputDir settings.spelling

/-- Registers the directory of an entry as a project. -/
def openEntryProject (settings : Settings) (entry : Path) : Build ProjectId := do
  let root := entry.parent?.getD ⟨"."⟩
  openProject settings (settings.projectName?.getD (root.fileName?.getD "project")) root

/-- The file component of an entry: from `current` down by the segments of its dotted name. What
is not there, because it came onto the disk after its project was registered, is made on the
way. -/
def fileAt (entry : Path) (current : ComponentId) (dir : Path) :
    List String → Build ComponentId
  | [] => return current
  | segment :: rest => do
    let dir := dir.join ⟨segment⟩
    let next ←
      match (← component current).child? segment with
      | some child => pure child
      | none => addFile (some current) segment (if rest.isEmpty then entry else dir)
    fileAt entry next dir rest

/-- Compiles the Light source at a path. -/
def compile (settings : Settings) (entry : Path) : Build Compiled := do
  let entry ← absoluteArgument entry
  if !(← get).disk.isFile entry then throw (.nothingAt entry)
  if Language.ofPath? entry ≠ some .light then throw (.unknownLanguage entry)
  let project ←
    match (← get).projectAround? entry with
    | some project => pure project
    | none => openEntryProject settings entry
  -- stays so if something below fails
  modify fun ws => { ws with active? := some project }
  let owner := (← get).project project
  match Project.nameBelow? owner.root entry with
  | none => throw (.outsideProject entry owner.name)
  | some dotted =>
    let file ← fileAt entry owner.component owner.root (Text.pieces '.' dotted)
    load file
    match (← component file).child? mainName with
    | some function => markReferenced function
    | none => pure ()
    let path ← header file
    return { project, path, text := (← component file).buffer.text }

end Build

end LightHeaders
