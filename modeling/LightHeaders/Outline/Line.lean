import LightHeaders.Instruction
import LightHeaders.Text.Blank
import LightHeaders.Text.Cut

set_option autoImplicit false

/-! # One line of an outline

A line reads

    op [name] [: type] [@key[=value] ...]

A name is a word or a literal in single or double quotes, which is kept with its quotes; in a
literal a backslash takes the next character with it. A setting without a value has the value
`true`. `Line.parse` reads a line and `Line.render` writes one.
-/

namespace LightHeaders

open Text

/-- Why a line cannot be read. -/
inductive LineFault where
  /-- No closing quote; with the text from the opening quote on. -/
  | unterminated (rest : String)
  /-- Nothing behind the colon. -/
  | missingType
  /-- Nothing between `@` and `=`. -/
  | emptyAttributeName
  /-- Text where the line should end. -/
  | unexpected (rest : String)
deriving DecidableEq, Repr

/-- The wording of a fault. -/
def LineFault.message : LineFault → String
  | .unterminated rest => "unterminated literal `" ++ rest ++ "`"
  | .missingType => "missing type after `:`"
  | .emptyAttributeName => "empty attribute name"
  | .unexpected rest => "unexpected `" ++ rest ++ "`"

namespace Line

/-! ## Reading -/

/-- Whether a character opens a literal. -/
def isQuote (c : Char) : Bool := c = '"' || c = '\''

/-- The text up to and with the closing quote, and what stands behind it. A character behind a
backslash closes nothing. -/
def closeQuote? (quote : Char) : List Char → Option (List Char × List Char)
  | [] => none
  -- the character behind a backslash is taken unread
  | '\\' :: c :: cs => (closeQuote? quote cs).map fun (front, back) => ('\\' :: c :: front, back)
  | c :: cs =>
    if c = quote then some ([c], cs)
    else (closeQuote? quote cs).map fun (front, back) => (c :: front, back)

/-- The name at the start of a text, and what stands behind it. -/
def parseName (cs : List Char) : Except LineFault (List Char × List Char) :=
  match cs with
  | [] => .ok ([], [])
  | c :: rest =>
    if isQuote c then
      match closeQuote? c rest with
      | some (front, back) => .ok (c :: front, back)
      | none => .error (.unterminated (String.ofList cs))
    else if c = ':' || c = '@' then .ok ([], cs)
    else .ok (word cs, afterWord cs)

/-- The type at the start of a text, if it starts with a colon, and what stands behind it. -/
def parseType (cs : List Char) : Except LineFault (Option (List Char) × List Char) :=
  match cs with
  | ':' :: rest =>
    let rest := trimStart rest
    if word rest = [] then .error .missingType else .ok (some (word rest), trimStart (afterWord rest))
  | _ => .ok (none, cs)

/-- The key and the value of a setting, which is `true` if no value is given. -/
def splitAttribute (cs : List Char) : List Char × List Char := (cutFirst? '=' cs).getD (cs, "true".toList)

/-- The settings that make up a text, at most `bound` of them. -/
def parseAttributes : Nat → List Char → Except LineFault (List (String × String))
  | _, [] => .ok []
  | bound + 1, '@' :: rest =>
    let (key, value) := splitAttribute (word rest)
    if key = [] then .error .emptyAttributeName
    else do
      let others ← parseAttributes bound (trimStart (afterWord rest))
      .ok ((String.ofList key, String.ofList value) :: others)
  | _, rest => .error (.unexpected (String.ofList rest))

/-- The instruction on a line; the line has no blanks at its ends. A text of `n` characters has at
most `n` settings. -/
def parse (cs : List Char) : Except LineFault Instruction := do
  let (name, rest) ← parseName (trimStart (afterWord cs))
  let (type?, rest) ← parseType (trimStart rest)
  let attributes ← parseAttributes rest.length rest
  .ok {
    op := String.ofList (word cs)
    name := String.ofList name
    type? := type?.map String.ofList
    attributes }

/-! ## Writing -/

/-- The name of an instruction behind its operation. -/
def renderName (name : String) : List Char := if name = "" then [] else ' ' :: name.toList

/-- The type of an instruction behind its name. -/
def renderType : Option String → List Char
  | none => []
  | some type => [' ', ':', ' '] ++ type.toList

/-- One setting of an instruction behind what stands before it. -/
def renderAttribute (a : String × String) : List Char :=
  [' ', '@'] ++ a.1.toList ++ '=' :: a.2.toList

/-- The line of an instruction. -/
def render (i : Instruction) : List Char :=
  i.op.toList ++ renderName i.name ++ renderType i.type? ++ i.attributes.flatMap renderAttribute

end Line

end LightHeaders
