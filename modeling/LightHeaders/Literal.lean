import LightHeaders.Text.Cut
import LightHeaders.Text.Letter

set_option autoImplicit false

/-! # Literals

The text of a value is a **literal** of one of five kinds, a dotted **name**, or neither
(`Literal.reading`). A literal of one kind can be written as a literal of another
(`Literal.recast`), and any text can be written between double quotes (`Literal.escape`).
-/

namespace LightHeaders

open Text

/-- The kinds of literal. -/
inductive LiteralKind where
  | int
  | float
  | string
  | char
  | bool
deriving DecidableEq, Repr

/-- The name of a kind. -/
def LiteralKind.name : LiteralKind → String
  | .int => "int"
  | .float => "float"
  | .string => "string"
  | .char => "char"
  | .bool => "bool"

/-- The kind with the given name. -/
def LiteralKind.ofName? : String → Option LiteralKind
  | "int" => some .int
  | "float" => some .float
  | "string" => some .string
  | "char" => some .char
  | "bool" => some .bool
  | _ => none

/-- What the text of a value is. -/
inductive Reading where
  /-- Neither a literal nor a name. -/
  | invalid
  /-- A dotted name, to be resolved. -/
  | name
  /-- A literal. -/
  | value (kind : LiteralKind)
deriving DecidableEq, Repr

namespace Literal

/-! ## Recognising -/

/-- Whether the text starts and ends with the given quote, with one character for each. -/
def isEnclosed (quote : Char) (cs : List Char) : Bool :=
  2 ≤ cs.length && cs.head? = some quote && cs.getLast? = some quote

/-- The text without one leading `c`. -/
def dropLeading (c : Char) : List Char → List Char
  | d :: ds => if d = c then ds else d :: ds
  | [] => []

/-- The text without one `c` at its end. -/
def dropTrailing (c : Char) (cs : List Char) : List Char :=
  if cs.getLast? = some c then cs.dropLast else cs

/-- Decimal digits with an optional minus sign. -/
def isIntegral (cs : List Char) : Bool :=
  let digits := dropLeading '-' cs
  !digits.isEmpty && digits.all Char.isDigit

/-- Digits, a point and digits, not both empty, with an optional minus sign and an optional `f`. -/
def isFractional (cs : List Char) : Bool :=
  match cutFirst? '.' (dropLeading '-' (dropTrailing 'f' cs)) with
  | none => false
  | some (whole, fraction) =>
    !(whole.isEmpty && fraction.isEmpty) && whole.all Char.isDigit && fraction.all Char.isDigit

/-- A letter or underscore, then letters, numbers and underscores. -/
def isSegment : List Char → Bool
  | [] => false
  | c :: cs => (isAlphabetic c || c = '_') && cs.all fun c => isAlphanumeric c || c = '_'

/-- Segments with dots between them. -/
def isDottedName (cs : List Char) : Bool := (splitAt '.' cs).all isSegment

/-- What the text of a value is. -/
def reading (s : String) : Reading :=
  let cs := s.toList
  if isEnclosed '"' cs then .value .string
  else if isEnclosed '\'' cs then .value .char
  else if s = "true" || s = "false" then .value .bool
  else if isIntegral cs then .value .int
  else if isFractional cs then .value .float
  else if isDottedName cs then .name
  else .invalid

/-! ## Quoting -/

/-- One character between double quotes. -/
def escapeChar : Char → List Char
  | '\\' => ['\\', '\\']
  | '"' => ['\\', '"']
  | '\n' => ['\\', 'n']
  | '\t' => ['\\', 't']
  | c => [c]

/-- The text as it stands between double quotes. -/
def escape (s : String) : String := String.ofList (s.toList.flatMap escapeChar)

/-! ## Converting -/

/-- The digits before the point of a float, with a zero where there are none. -/
def wholePart (s : String) : String :=
  match (splitAt '.' (dropTrailing 'f' s.toList)).headD [] with
  | [] => "0"
  | ['-'] => "-0"
  | whole => String.ofList whole

/-- Whether a number has no digit but zero. -/
def isZero (s : String) : Bool :=
  (s.toList.dropWhile (· = '-')).all fun c => c = '0' || c = '.' || c = 'f'

/-- The text of a literal of kind `source`, written as a literal of kind `target`. Between kinds
that do not convert the text stays as it is. -/
def recast (s : String) (source target : Option LiteralKind) : String :=
  match source, target with
  | some .string, some .string => s
  | _, some .string => "\"" ++ escape s ++ "\""
  | some .int, some .float => s ++ ".0"
  | some .bool, some .float => if s = "true" then "1.0" else "0.0"
  | some .float, some .int => wholePart s
  | some .bool, some .int => if s = "true" then "1" else "0"
  | some .int, some .bool => if isZero s then "false" else "true"
  | some .float, some .bool => if isZero s then "false" else "true"
  | _, _ => s

end Literal

end LightHeaders
