import LightHeaders.Path.Normal
import LightHeaders.Text.Blank

set_option autoImplicit false

/-! # Settings

What a compiler is told besides its sources, by its caller or by variables of its surroundings.
-/

namespace LightHeaders

/-- What a compiler is told besides its sources. -/
structure Settings where
  /-- The directory that headers go to. -/
  outputDir : Path := ⟨"/tmp/fractal"⟩
  /-- The name of projects that are registered for a source without one; the name of its directory
  if there is none. -/
  projectName? : Option String := none
  /-- Whether declarations that nothing refers to are left out. -/
  omitUnreferenced : Bool := false
  /-- How paths are spelled in headers. -/
  spelling : Spelling := .plain
deriving DecidableEq, Repr

namespace Settings

/-- The variable with the directory that headers go to. -/
def outputDirVariable : String := "FRACTAL_TEMP_DIR"

/-- The variable that says whether declarations that nothing refers to are left out. -/
def omitVariable : String := "FRACTAL_OMIT_UNCALLED"

/-- Whether the value of a variable, blanks at its ends aside, says yes. -/
def saysYes (value : String) : Bool :=
  ["1", "true", "yes"].contains (String.ofList (Text.trim value.toList))

/-- The settings that variables give. An empty directory counts as none. -/
def ofVariables (value? : String → Option String) : Settings :=
  let defaults : Settings := {}
  { outputDir := ((value? outputDirVariable).filter (· ≠ "")).elim defaults.outputDir Path.mk
    omitUnreferenced := ((value? omitVariable).map saysYes).getD defaults.omitUnreferenced }

end Settings

end LightHeaders
