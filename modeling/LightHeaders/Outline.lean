import LightHeaders.Outline.Line
import LightHeaders.Text.Lines

set_option autoImplicit false

/-! # Outlines

An **outline** is the text form of instructions: one on a line, the children of an instruction
behind it and deeper. The parent of a line is the nearest line before it with smaller indentation;
a line without one stands directly below the root. Blank lines and lines that start with `#` say
nothing.

`Outline.parse` adds the instructions of an outline to a forest. It keeps what it added if a line
cannot be read. `Outline.render` writes the instructions below a root with four blanks a level.
-/

namespace LightHeaders

open Text

/-- A line that cannot be read, counted from one. -/
structure OutlineError where
  line : Nat
  fault : LineFault
deriving DecidableEq, Repr

/-- The wording of an error. -/
def OutlineError.message (e : OutlineError) : String :=
  "line " ++ toString e.line ++ ": " ++ e.fault.message

namespace Outline

/-! ## Reading -/

/-- How far a line is indented: a tab counts four, any other blank one. -/
def columns (raw : List Char) : Nat :=
  (raw.takeWhile isBlank).foldr (fun c n => (if c = '\t' then 4 else 1) + n) 0

/-- Whether a line, without the blanks at its ends, says nothing. -/
def isSilent (content : List Char) : Bool := content.isEmpty || content.head? = some '#'

/-- The instructions read so far, and those that can still get children with their indentation,
the innermost first. -/
structure Progress where
  forest : Forest
  opened : List (Nat × InstructionId) := []

/-- Reads one line below `root`. -/
def readLine (root : InstructionId) (st : Progress) (raw : List Char) :
    Except LineFault Progress :=
  let content := trim raw
  if isSilent content then .ok st
  else do
    let indent := columns raw
    -- instructions that are not less indented get no more children
    let opened := st.opened.dropWhile fun (level, _) => indent ≤ level
    let parent := (opened.head?.map Prod.snd).getD root
    let node ← Line.parse content
    let (id, forest) := st.forest.addChild parent node
    .ok { forest, opened := (indent, id) :: opened }

/-- Reads lines below `root`; the first of them has the given number. -/
def readLines (root : InstructionId) (st : Progress) (number : Nat) :
    List (List Char) → Forest × Option OutlineError
  | [] => (st.forest, none)
  | raw :: rest =>
    match readLine root st raw with
    | .ok st => readLines root st (number + 1) rest
    | .error fault => (st.forest, some ⟨number, fault⟩)

/-- Adds the instructions of an outline to a forest, below a root of their own. -/
def parse (source : String) (f : Forest) : Forest × Except OutlineError InstructionId :=
  let (root, f) := f.add .root
  match readLines root { forest := f } 1 (lines source.toList) with
  | (f, none) => (f, .ok root)
  | (f, some e) => (f, .error e)

/-! ## Writing -/

mutual

/-- The lines of a tree at the given depth. -/
def renderTree (depth : Nat) : InstructionTree → List Char
  | .node _ head children =>
    blanks (4 * depth) ++ Line.render head ++ '\n' :: renderTrees (depth + 1) children

/-- The lines of trees at the given depth. -/
def renderTrees (depth : Nat) : List InstructionTree → List Char
  | [] => []
  | t :: ts => renderTree depth t ++ renderTrees depth ts

end

/-- The outline of what stands below an instruction. -/
def render (f : Forest) (root : InstructionId) : String :=
  String.ofList (renderTrees 0 (f.body root))

end Outline

end LightHeaders
