import LightHeaders.Text.Cut

set_option autoImplicit false

/-! # Lines

A line ends at a line feed; a carriage return directly before the line feed belongs to the end of
the line. What stands behind the last line feed is a line of its own if it is not empty, and then
keeps a carriage return at its end, since no line feed follows.
-/

namespace LightHeaders.Text

/-- The line without one carriage return at its end. -/
def dropReturn (line : List Char) : List Char :=
  match line.getLast? with
  | some '\r' => line.dropLast
  | _ => line

/-- The pieces between line feeds as lines: every piece but the last was ended by a line feed. -/
def linesOfPieces : List (List Char) → List (List Char)
  | [] => []
  | [rest] => if rest.isEmpty then [] else [rest]
  | line :: next :: pieces => dropReturn line :: linesOfPieces (next :: pieces)

/-- The lines of a text. -/
def lines (cs : List Char) : List (List Char) := linesOfPieces (splitAt '\n' cs)

end LightHeaders.Text
