import LightHeaders.Component
import LightHeaders.Path.Normal

set_option autoImplicit false

/-! # Projects

A **project** is a directory of sources that are compiled together, with the directory that its
headers go to. A source is known below its project by its path from the root without the
extension: `nameBelow?` joins the steps with dots, `headerName` with underscores.
-/

namespace LightHeaders

/-- A directory of sources that are compiled together. -/
structure Project where
  name : String
  root : Path
  /-- The directory that its headers go to. -/
  outputDir : Path
  /-- How paths are spelled in its headers. -/
  spelling : Spelling
  /-- The file component of its root. -/
  component : ComponentId
deriving DecidableEq, Repr, Inhabited

/-- The steps from a root down to a path, without the extension at the end. -/
def Path.stepsBelow? (p root : Path) : Option (List String) :=
  (p.relativeTo? root).map fun relative => (relative.withExtension "").parts.map Path.Part.text

namespace Project

/-- The base name of the header of a source: the steps below the root, or the bare file name of a
source elsewhere. -/
def headerName (root p : Path) : String :=
  match p.stepsBelow? root with
  | some steps => Text.glue "_" steps
  | none => p.stem?.getD ""

/-- The dotted name of a source below a root. -/
def nameBelow? (root p : Path) : Option String :=
  match p.stepsBelow? root with
  | none | some [] => none
  | some steps => some (Text.glue "." steps)

end Project

end LightHeaders
