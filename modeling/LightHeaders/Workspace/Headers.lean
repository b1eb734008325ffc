import LightHeaders.Workspace.Rendering

set_option autoImplicit false

/-! # The header of a file

Each source has one header. A C++ header is its own; a Light source is written to a header in the
output directory of its project, the first time it is asked for (`header`). The path of the
header is decided before anything is written, so files that include one another come to an end.

The header is named for the source (`Project.headerName`). The name of the project is put before
that if the project is not the active one, or if another project has taken the path.

Each request for the header of a file whose path is not decided decides one, so requests inside
one another are never deeper than there are such files.
-/

namespace LightHeaders

namespace Workspace

/-- How paths are spelled for a component. -/
def spellingOf (ws : Workspace) (id : ComponentId) : Spelling :=
  ((ws.owner? id).map fun project => (ws.project project).spelling).getD .plain

/-- How many files have no output path. -/
def undecided (ws : Workspace) : Nat :=
  ws.components.toList.countP fun c => c.file?.any (·.output?.isNone)

end Workspace

/-- The extension of the headers that are written. -/
def headerSuffix : String := "hpp"

namespace Build

/-- The absolute form of a path. -/
def absolute (p : Path) : Build Path := do
  match Path.absolute? (← get).disk.current p with
  | some q => return q
  | none => throw (.unusable p .emptyPath)

/-- The path of the header of a Light source, taken for its project. -/
def chooseOutput (id : ComponentId) (source : Path) : Build Path := do
  let ws ← get
  match ws.owner? id with
  | none => throw (.ownerless (ws.dottedPath id))
  | some owner =>
    let project := ws.project owner
    let plainName := Project.headerName project.root source ++ "." ++ headerSuffix
    let plain ← absolute (project.outputDir.join ⟨plainName⟩)
    let isForeign := ws.active?.any (· ≠ owner)
    let isTaken := (ws.taken.lookup plain).any (· ≠ owner)
    let output ←
      if isForeign || isTaken then
        absolute (project.outputDir.join ⟨project.name ++ "_" ++ plainName⟩)
      else pure plain
    -- the first project to take a path keeps it
    modify fun ws =>
      if (ws.taken.lookup output).isSome then ws
      else { ws with taken := ws.taken ++ [(output, owner)] }
    return output

/-- Decides the path of a header whose text is to be written. -/
def beginHeader (id : ComponentId) (output : Path) : Build Unit := do
  updateFile id fun f => { f with output? := some output }
  record (.begun id)

/-- Writes the header of a Light source. -/
def writeHeader (render : ComponentId → Build String) (id : ComponentId) (output : Path) :
    Build Unit := do
  clear id
  let text ← render id
  match output.parent? with
  | none => pure ()
  | some dir => change (·.makeDirectories dir) (.unusable dir)
  change (·.writeText output text) (.unusable output)

/-- The path of the header of a file, which is decided and written the first time. -/
def headerWith (render : ComponentId → Build String) (id : ComponentId) : Build String := do
  let spelling := (← get).spellingOf id
  match (← component id).file?.bind SourceFile.output? with
  | some output => return spelling.spell output
  | none =>
    load id
    match (← component id).file? with
    | none => throw (.unknownName ((← get).dottedPath id))
    | some file =>
      match file.language? with
      | none => throw (.unknownLanguage file.path)
      | some .cpp =>
        updateFile id fun f => { f with output? := some file.path }
        return spelling.spell file.path
      | some .light =>
        let output ← chooseOutput id file.path
        -- before anything is written: the text can include files that include this one
        beginHeader id output
        writeHeader render id output
        return spelling.spell output

/-- The path of the header of the file around a component. -/
def headerAroundWith (header : ComponentId → Build String) (id : ComponentId) : Build String := do
  let ws ← get
  match ws.fileOf? id with
  | none => throw (.unknownName (ws.dottedPath id))
  | some file => header file

/-- Includes the header of the file around a component in a file, once for each path. -/
def includeWith (header : ComponentId → Build String) (file id : ComponentId) :
    Build String := do
  let path ← headerAroundWith header id
  if (← component file).file?.any (·.included.contains path) then return path
  needReader .cpp
  writePlainLine file ("#include \"" ++ Literal.escape path ++ "\"")
  updateFile file fun f => { f with included := f.included ++ [path] }
  return path

/-- The path of the header of a file, with at most `depth` requests inside one another below
it. -/
def headerWithin : Nat → ComponentId → Build String
  | 0, id => headerWith (fun _ => return "") id
  | depth + 1, id =>
    headerWith (renderWith fun file id => discard <| includeWith (headerWithin depth) file id) id

/-- The path of the header of a file, which is decided and written the first time. -/
def header (id : ComponentId) : Build String := do headerWithin (← get).undecided id

/-- The path of the header of the file around a component. -/
def headerAround (id : ComponentId) : Build String := headerAroundWith header id

/-- Includes the header of the file around a component in a file, once for each path. -/
def includeHeader (file id : ComponentId) : Build String := includeWith header file id

/-- Writes a component with everything below it, and hands its text on. -/
def render (id : ComponentId) : Build String :=
  renderWith (fun file id => discard <| includeHeader file id) id

end Build

end LightHeaders
