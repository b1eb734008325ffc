import LightHeaders.Workspace

set_option autoImplicit false

/-! # The skeleton of a project

A file component is made for a source or a directory without reading any source. A directory gets
a child for each source and each directory in it, sources first, each in the order of the names;
names that start with a dot are passed over. A source takes the directory of the same stem beside
it for its own children, and that directory gets no component of its own beside a Light source.
-/

namespace LightHeaders

namespace Build

/-- Makes a file component for what is at a path, and below it what `populate` finds in the
directory that belongs to it. -/
def makeFile (populate : ComponentId → Path → Build Unit) (parent? : Option ComponentId)
    (name : String) (path : Path) : Build ComponentId := do
  let entry ← ask (·.stat path) fun fault =>
    if fault = .missing then .nothingAt path else .unusable path fault
  let isDirectory :=
    match entry with
    | .directory => true
    | .file _ => false
  let kind := Kind.file { path, isDirectory }
  let id ←
    match parent? with
    | some parent => addBelow parent name kind none
    | none => addRoot name kind
  let family := if isDirectory then path else path.withExtension ""
  if (← get).disk.isDirectory family then populate id family
  return id

/-- The names in a directory that do not start with a dot, with their paths. -/
def visibleNames (dir : Path) : Build (List (String × Path)) := do
  let names ← ask (·.names dir) (.unusable dir)
  return (names.filter fun name => name.toList.head? != some '.').map fun name =>
    (name, dir.join ⟨name⟩)

/-- Makes file components below `id` for what is in a directory, at most `depth` directories
deep. -/
def populateWithin : Nat → ComponentId → Path → Build Unit
  | 0, _, _ => pure ()
  | depth + 1, id, dir => do
    let found ← visibleNames dir
    let disk := (← get).disk
    -- sources first: a Light source has the directory of its stem before that comes up
    let sources := found.filter fun (_, path) => disk.isFile path && Language.isSource path
    sources.forM fun (name, path) => do
      discard <| makeFile (populateWithin depth) (some id) (path.stem?.getD name) path
    let directories := found.filter fun (_, path) =>
      disk.isDirectory path && !disk.isFile (path.withExtension Language.lightSuffix)
    directories.forM fun (name, path) => do
      discard <| makeFile (populateWithin depth) (some id) name path

/-- Makes a file component for what is at a path, with everything that belongs below it. No
directory is deeper than there are entries on the disk. -/
def addFile (parent? : Option ComponentId) (name : String) (path : Path) : Build ComponentId := do
  makeFile (populateWithin ((← get).disk.entries.length + 1)) parent? name path

/-- Registers a project: makes its skeleton and gives it the next number. -/
def registerProject (name : String) (root outputDir : Path) (spelling : Spelling) :
    Build ProjectId := do
  let component ← addFile none name root
  let id := (← get).projects.size
  modify fun ws =>
    { ws with projects := ws.projects.push { name, root, outputDir, spelling, component } }
  updateFile component fun f => { f with project? := some id }
  return id

end Build

end LightHeaders
