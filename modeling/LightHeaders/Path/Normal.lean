import LightHeaders.Path

set_option autoImplicit false

/-! # Normal paths

A path is brought to its **normal form** by its spelling alone: `.` is dropped and `..` takes the
part before it away. Where no part can be taken away, at the start or at the root, `..` stays, and
a `..` that stayed is itself a part that the next one takes away.

`absolute?` is the normal form of a path as seen from a directory.
-/

namespace LightHeaders

namespace Path

/-- One part read onto the parts kept so far, the last of them first. -/
def normalStep (kept : List Part) : Part → List Part
  | .here => kept
  | .up =>
    match kept with
    | [] => [.up]
    | .root :: rest => .up :: .root :: rest
    -- a name, or a `..` that stayed
    | _ :: rest => rest
  | part => part :: kept

/-- The parts of the normal form. -/
def normalParts (parts : List Part) : List Part := (parts.foldl normalStep []).reverse

/-- The normal form of a path. -/
def normal (p : Path) : Path := ofParts (normalParts p.parts)

/-- The normal form of `p` as seen from `base`. The empty path names no place. -/
def absolute? (base p : Path) : Option Path :=
  if p.isEmpty then none else some (base.join p).normal

end Path

/-- How a path is spelled in a header. -/
inductive Spelling where
  /-- With every character as it is. -/
  | plain
  /-- With `/` for every backslash. -/
  | slashes
deriving DecidableEq, Repr, Inhabited

/-- The normal form of a path in the given spelling. -/
def Spelling.spell (spelling : Spelling) (p : Path) : String :=
  match spelling with
  | .plain => p.normal.text
  | .slashes => String.ofList (p.normal.text.toList.map fun c => if c = '\\' then '/' else c)

end LightHeaders
