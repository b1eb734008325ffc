import LightHeaders.Text.Cut

set_option autoImplicit false

/-! # Paths

A **path** is a text that names a place in a tree of directories; it keeps the spelling it was
given. What it names is read from its **parts**: `/` separates segments, empty segments count for
nothing, `.` counts only at the start of a relative path, and `..` is a part of its own.

Beside the reading of a path (`Path.parts`) and its spelling from parts (`Path.ofParts`) this file
has the file name and its two halves (`fileName?`, `stem?`, `extension?`, `withExtension`), and
the relation between two paths (`isBelow`, `relativeTo?`).
-/

namespace LightHeaders

open Text

/-- A path, by its spelling. -/
structure Path where
  text : String
deriving DecidableEq, Repr, Inhabited

namespace Path

/-! ## Parts -/

/-- One step of a path: the root, the place itself, the place above, or a name below. -/
inductive Part where
  | root
  | here
  | up
  | name (s : String)
deriving DecidableEq, Repr

/-- How a part is spelled. -/
def Part.text : Part → String
  | .root => "/"
  | .here => "."
  | .up => ".."
  | .name s => s

/-- The texts between the separators, empty ones included. -/
def segments (p : Path) : List (List Char) := splitAt '/' p.text.toList

/-- Whether a segment stands for no step at all. -/
def isFiller (segment : List Char) : Bool := segment = [] || segment = ['.']

/-- The step that a segment behind a separator stands for. -/
def partOf? (segment : List Char) : Option Part :=
  if isFiller segment then none
  else if segment = ['.', '.'] then some .up
  else some (.name (String.ofList segment))

/-- The step that the first segment stands for: a root if a separator follows nothing, and `.` as
a step of its own. -/
def leadingPart? (first : List Char) (rest : List (List Char)) : Option Part :=
  if first = [] then (if rest = [] then none else some .root)
  else if first = ['.'] then some .here
  else partOf? first

/-- The parts of a path. -/
def parts (p : Path) : List Part :=
  match p.segments with
  | [] => []
  | first :: rest => (leadingPart? first rest).toList ++ rest.filterMap partOf?

/-- The parts spelled with one separator between two neighbours. -/
def ofParts : List Part → Path
  | .root :: rest => ⟨"/" ++ glue "/" (rest.map Part.text)⟩
  | parts => ⟨glue "/" (parts.map Part.text)⟩

/-- Whether the path starts at the root. -/
def isAbsolute (p : Path) : Bool := p.text.toList.head? = some '/'

/-- Whether the path has no text. -/
def isEmpty (p : Path) : Bool := p.text = ""

/-! ## Joining -/

/-- `q` as seen from `p`: an absolute `q` is taken as it is. -/
def join (p q : Path) : Path :=
  if q.isAbsolute then q
  else if p.isEmpty || p.text.toList.getLast? = some '/' then ⟨p.text ++ q.text⟩
  else ⟨p.text ++ "/" ++ q.text⟩

/-- The place above, spelled from parts; none above the root and above the empty path. -/
def parent? (p : Path) : Option Path :=
  match p.parts.getLast? with
  | none | some .root => none
  | some _ => some (ofParts p.parts.dropLast)

/-! ## The file name -/

/-- The segments up to the last one that is a step, and that one, if it is a name. -/
def lastName? (p : Path) : Option (List (List Char) × List Char) :=
  match p.segments.reverse.dropWhile isFiller with
  | [] => none
  | name :: above => if name = ['.', '.'] then none else some (above.reverse, name)

/-- A file name cut at its last dot; a name whose only dot comes first is not cut. -/
def cutName (name : List Char) : List Char × Option (List Char) :=
  match cutLast? '.' name with
  | none | some ([], _) => (name, none)
  | some (stem, ext) => (stem, some ext)

/-- The name at the end of the path. -/
def fileName? (p : Path) : Option String := p.lastName?.map fun (_, name) => String.ofList name

/-- The file name up to its last dot. -/
def stem? (p : Path) : Option String :=
  p.lastName?.map fun (_, name) => String.ofList (cutName name).1

/-- The file name behind its last dot. -/
def extension? (p : Path) : Option String :=
  p.lastName?.bind fun (_, name) => (cutName name).2.map String.ofList

/-- The path with `ext` in the place of its extension; the empty extension takes the dot away with
it. A path without a file name stays as it is. -/
def setExtension (p : Path) (ext : String) : Path :=
  match p.lastName? with
  | none => p
  | some (above, name) =>
    let tail := if ext = "" then [] else '.' :: ext.toList
    ⟨String.ofList (Text.join ['/'] (above ++ [(cutName name).1 ++ tail]))⟩

/-- The path without as many characters at its end as its extension has. -/
def dropExtension (p : Path) : Path :=
  let cs := p.text.toList
  ⟨String.ofList (cs.take (cs.length - (p.extension?.getD "").length))⟩

/-- The path with another extension. The old one is dropped before the new one is set, so a path
that is left with `..` at its end names no file any more and gets no extension. -/
def withExtension (p : Path) (ext : String) : Path := p.dropExtension.setExtension ext

/-! ## One path below another -/

/-- Whether the parts of `base` are the first parts of `p`. -/
def isBelow (p base : Path) : Bool := base.parts.isPrefixOf p.parts

/-- What is left of `p` behind the parts of `base`. -/
def relativeTo? (p base : Path) : Option Path := (base.parts.isPrefixOf? p.parts).map ofParts

end Path

end LightHeaders
