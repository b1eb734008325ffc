import LightHeaders.Instruction
import LightHeaders.Text.Blank
import LightHeaders.Text.Cut
import LightHeaders.Text.Lines

set_option autoImplicit false

/-! # Function prototypes of a C++ header

Of a header only plain function prototypes are read, such as `int add(int a, int b);`. The text is
cut into **declarations** at its semicolons, after comments and the lines for the preprocessor are
taken out (`Header.declarations`); a declaration that is no prototype is passed over
(`Prototype.parse?`). Each prototype becomes a `function` instruction with a `param` child for
each parameter (`Header.read`).
-/

namespace LightHeaders

open Text

/-- A function prototype. -/
structure Prototype where
  name : String
  /-- The result type. -/
  result : String
  /-- Name and type of each parameter. -/
  params : List (String × String)
deriving DecidableEq, Repr

namespace Prototype

/-- The specifiers that say nothing about a type. -/
def specifiers : List String := ["extern", "static", "inline"]

/-- The text without the blank directly before each `mark`. -/
def closeUp (mark : Char) : List Char → List Char
  | ' ' :: c :: rest =>
    if c = mark then c :: closeUp mark rest else ' ' :: closeUp mark (c :: rest)
  | c :: rest => c :: closeUp mark rest
  | [] => []

/-- Whether a character marks a pointer or a reference. -/
def isMark (c : Char) : Bool := c = '*' || c = '&'

/-- Type and name of a declarator such as `const char *name`. The marks before the name belong to
the type. None if either is missing. -/
def typeAndName? (cs : List Char) : Option (String × String) :=
  let all := (words cs).filter fun w => !specifiers.contains (String.ofList w)
  match all.getLast?, all.dropLast with
  | none, _ | _, [] => none
  | some last, rest =>
    let name := last.dropWhile isMark
    if name = [] then none
    else
      let type := Text.join [' '] rest ++ last.takeWhile isMark
      some (String.ofList (closeUp '&' (closeUp '*' type)), String.ofList name)

/-- Name and type of the parameter at a position; one without a name is named for its position. -/
def parseParam? (index : Nat) (cs : List Char) : Option (String × String) :=
  match typeAndName? cs with
  | some (type, name) => some (name, type)
  | none => if cs = [] then none else some ("arg" ++ toString index, String.ofList cs)

/-- The parameters of a list, the first of them at the given position. -/
def parseParams? (index : Nat) : List (List Char) → Option (List (String × String))
  | [] => some []
  | cs :: rest => do
    let param ← parseParam? index (trim cs)
    let params ← parseParams? (index + 1) rest
    some (param :: params)

/-- The prototype that a declaration is: a declarator, and a parameter list from the first opening
to the last closing parenthesis, with nothing behind it. -/
def parse? (declaration : List Char) : Option Prototype := do
  if declaration.contains '\x7b' || declaration.contains '\x7d' then none
  let (front, back) ← cutFirst? '(' declaration
  let (inner, tail) ← cutLast? ')' back
  if !(trim tail).isEmpty then none
  let (result, name) ← typeAndName? front
  let list := trim inner
  if list = [] || list = "void".toList then some { name, result, params := [] }
  else some { name, result, params := ← parseParams? 0 (splitAt ',' list) }

/-- Adds the instructions of a prototype below `root`. -/
def addTo (p : Prototype) (root : InstructionId) (f : Forest) : Forest :=
  let (function, f) := f.addChild root { op := "function", name := p.name, type? := some p.result }
  p.params.foldl (fun f (name, type) =>
    (f.addChild function { op := "param", name, type? := some type }).2) f

end Prototype

namespace Header

/-- The code of a line outside a block comment, and whether the line opens one. A block comment
that opens takes the rest of the line with it. -/
def codeOf (line : List Char) : List Char × Bool :=
  -- line comments go first, so one that starts inside a block comment hides its end
  let code := (before? '/' '/' line).getD line
  match before? '/' '*' code with
  | none => (code, false)
  | some front => (front, (after? '*' '/' (code.drop front.length)).isNone)

/-- The code of a header, with a blank behind each line that has code. `inComment` says whether a
block comment is open. -/
def code (inComment : Bool) : List (List Char) → List Char
  | [] => []
  | raw :: rest =>
    -- none if the comment takes the whole line
    let line? := if inComment then (after? '*' '/' (trim raw)).map trim else some (trim raw)
    match line? with
    | none => code true rest
    | some line =>
      if line.head? = some '#' then code false rest
      else
        let (front, opens) := codeOf line
        front ++ ' ' :: code opens rest

/-- The declarations of a header; what stands behind the last semicolon is none. -/
def declarations (source : String) : List (List Char) :=
  (splitAt ';' (code false (lines source.toList))).dropLast.map trim

/-- Adds the instructions of a header to a forest, below a root of their own. -/
def read (source : String) (f : Forest) : Forest × InstructionId :=
  let (root, f) := f.add .root
  (((declarations source).filterMap Prototype.parse?).foldl (fun f p => p.addTo root f) f, root)

end Header

end LightHeaders
