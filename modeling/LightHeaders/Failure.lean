import LightHeaders.Disk
import LightHeaders.Language

set_option autoImplicit false

/-! # Failures

Why building, resolving or writing components stops, and how it is told.
-/

namespace LightHeaders

/-- Why an operation stops. -/
inductive Failure where
  /-- A dotted name leads nowhere; with the name up to the segment that is missing. -/
  | unknownName (name : String)
  /-- There is nothing at a path. -/
  | nothingAt (path : Path)
  /-- The extension of a path selects no language. -/
  | unknownLanguage (path : Path)
  /-- No reader is registered for a language. -/
  | noReader (language : Language)
  /-- A source cannot be read as instructions. -/
  | malformedSource (path : Path)
  /-- A path cannot be used. -/
  | unusable (path : Path) (fault : Fault)
  /-- A declaration has no type, or a value is neither a literal nor a name. -/
  | untyped (subject : String)
  /-- A value does not fit where it stands. -/
  | misfit (subject expected found : String)
  /-- There is no way to write components of a kind. -/
  | notWritable (kind : String) (name : String)
  /-- An instruction stands where it cannot. -/
  | notPermitted (op : String) (container : String) (name : String)
  /-- A component is needed and the name stands for a native function. -/
  | notComponent (name : String)
  /-- Only files of projects have an output path. -/
  | ownerless (name : String)
  /-- The file to compile is not below its project. -/
  | outsideProject (path : Path) (project : String)
  /-- A path given by the caller cannot be used. -/
  | badArgument (path : Path) (fault : Fault)
deriving DecidableEq, Repr

/-- The wording of a failure. -/
def Failure.message : Failure → String
  | .unknownName name => "`" ++ name ++ "` not found"
  | .nothingAt path => "path `" ++ path.text ++ "` does not exist"
  | .unknownLanguage path => "no language handles `" ++ path.text ++ "`"
  | .noReader language => "no frontend registered for " ++ language.name
  | .malformedSource path => "frontend produced no Linear for `" ++ path.text ++ "`"
  | .unusable path fault => "cannot read `" ++ path.text ++ "`: " ++ fault.message
  | .untyped subject => "invalid type for `" ++ subject ++ "`"
  | .misfit subject expected found =>
    "type mismatch for `" ++ subject ++ "`: expected `" ++ expected ++ "`, found `" ++ found ++ "`"
  | .notWritable kind name => "emission of " ++ kind ++ " `" ++ name ++ "` is not implemented"
  | .notPermitted op container name =>
    "operation `" ++ op ++ "` not permitted in " ++ container ++ " `" ++ name ++ "`"
  | .notComponent name => "`" ++ name ++ "` is a native function, not a component"
  | .ownerless name => "`" ++ name ++ "` does not belong to any project"
  | .outsideProject path project =>
    "`" ++ path.text ++ "` is not inside project `" ++ project ++ "`"
  | .badArgument path fault => "`" ++ path.text ++ "`: " ++ fault.message

end LightHeaders
