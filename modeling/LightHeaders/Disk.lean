import LightHeaders.Assoc
import LightHeaders.Path.Normal
import LightHeaders.Text.Utf8

set_option autoImplicit false

/-! # The disk

A **disk** is a tree of directories and files as a value. An entry is found by its **location**,
the names from the root down to it; the root itself is always a directory. A path is followed step
by step as it is spelled (`Disk.follow`), so that every place it steps out of has to be a
directory.

Reading a disk gives an answer or a `Fault`; writing gives a new disk or a `Fault`.
-/

namespace LightHeaders

open Text

/-- Why a path cannot be used. -/
inductive Fault where
  | missing
  | exists
  | notDirectory
  | isDirectory
  | notText
  | emptyPath
deriving DecidableEq, Repr

/-- The wording of a fault. -/
def Fault.message : Fault → String
  | .missing => "No such file or directory (os error 2)"
  | .exists => "File exists (os error 17)"
  | .notDirectory => "Not a directory (os error 20)"
  | .isDirectory => "Is a directory (os error 21)"
  | .notText => "stream did not contain valid UTF-8"
  | .emptyPath => "cannot make an empty path absolute"

/-- What a file holds: text, or bytes that are not the encoding of any text. -/
inductive Content where
  | text (s : String)
  | bytes (b : ByteArray)

namespace Content

/-- The content that some bytes are. -/
def ofBytes (b : ByteArray) : Content :=
  match Utf8.decode? b with
  | some s => .text s
  | none => .bytes b

/-- The content as shown to a reader. -/
def shown : Content → String
  | .text s => s
  | .bytes b => Utf8.decodeShown b

end Content

/-- An entry of a disk. -/
inductive Entry where
  | directory
  | file (content : Content)

/-- The names from the root down to an entry. -/
abbrev Location := List String

/-- A tree of directories and files, with the directory that relative paths start from. -/
structure Disk where
  /-- The entries below the root, one for each location. -/
  entries : List (Location × Entry)
  /-- Where relative paths start. -/
  current : Path

namespace Disk

/-- A disk with nothing on it but the directory that relative paths start from. -/
def empty : Disk := ⟨[(["work"], .directory)], ⟨"/work"⟩⟩

/-! ## Entries by location -/

/-- The entry at a location. -/
def get? (d : Disk) (loc : Location) : Option Entry :=
  if loc = [] then some .directory else d.entries.lookup loc

/-- The disk with `e` at `loc`. -/
def set (d : Disk) (loc : Location) (e : Entry) : Disk :=
  { d with entries := Assoc.put loc e d.entries }

theorem get?_set_self (d : Disk) {loc : Location} (h : loc ≠ []) (e : Entry) :
    (d.set loc e).get? loc = some e := by
  simp [set, get?, h]

theorem get?_set_of_ne (d : Disk) {loc other : Location} (h : other ≠ loc) (e : Entry) :
    (d.set loc e).get? other = d.get? other := by
  simp [set, get?, Assoc.lookup_put_of_ne h]

/-- The path of a location. -/
def pathOf (loc : Location) : Path := ⟨"/" ++ glue "/" loc⟩

/-! ## Following a path -/

/-- Where the segments lead from a location. Each step leaves a directory. -/
def follow (d : Disk) : Location → List (List Char) → Except Fault Location
  | here, [] => .ok here
  | here, segment :: rest =>
    match d.get? here with
    | none => .error .missing
    | some (.file _) => .error .notDirectory
    | some .directory =>
      match Path.partOf? segment with
      | some (.name s) => d.follow (here ++ [s]) rest
      | some .up => d.follow here.dropLast rest
      -- `.` and the empty segment lead nowhere else, but only from a directory
      | _ => d.follow here rest

/-- Where a path leads; there need not be an entry. -/
def locate (d : Disk) (p : Path) : Except Fault Location :=
  if p.isEmpty then .error .missing else d.follow [] (d.current.join p).segments

/-- The entry that a path leads to. -/
def stat (d : Disk) (p : Path) : Except Fault Entry := do
  match d.get? (← d.locate p) with
  | some e => .ok e
  | none => .error .missing

/-- Whether the path leads to a file. -/
def isFile (d : Disk) (p : Path) : Bool :=
  match d.stat p with
  | .ok (.file _) => true
  | _ => false

/-- Whether the path leads to a directory. -/
def isDirectory (d : Disk) (p : Path) : Bool :=
  match d.stat p with
  | .ok .directory => true
  | _ => false

/-! ## Reading -/

/-- The text of a file. -/
def readText (d : Disk) (p : Path) : Except Fault String := do
  match ← d.stat p with
  | .directory => .error .isDirectory
  | .file (.bytes _) => .error .notText
  | .file (.text s) => .ok s

/-- A string put into an increasing list of strings. -/
def insertName (s : String) : List String → List String
  | [] => [s]
  | t :: ts => if s < t then s :: t :: ts else t :: insertName s ts

/-- The strings in increasing order, by their code points. -/
def sortNames (names : List String) : List String := names.foldr insertName []

/-- The names directly below a location, in increasing order. -/
def namesAt (d : Disk) (loc : Location) : List String :=
  sortNames (d.entries.filterMap fun (l, _) =>
    if l.dropLast = loc then l.getLast? else none)

/-- The names in a directory, in increasing order. -/
def names (d : Disk) (p : Path) : Except Fault (List String) := do
  match ← d.stat p with
  | .file _ => .error .notDirectory
  | .directory => .ok (d.namesAt (← d.locate p))

/-- What a file shows; none if the path leads to no file. -/
def shown? (d : Disk) (p : Path) : Option String :=
  match d.stat p with
  | .ok (.file c) => some c.shown
  | _ => none

/-- The paths and contents of all files at or below a path, in increasing order of the paths. -/
def filesBelow (d : Disk) (p : Path) : List (String × String) :=
  match d.locate p with
  | .error _ => []
  | .ok loc =>
    let files := d.entries.filterMap fun (l, e) =>
      match e with
      | .file c => if loc.isPrefixOf l then some ((pathOf l).text, c.shown) else none
      | .directory => none
    (sortNames (files.map Prod.fst)).filterMap fun name =>
      (files.lookup name).map fun text => (name, text)

/-! ## Writing -/

/-- Makes the directories of the steps from a location. A file in the way is a fault, of one kind
if it stands at the end and of another if it stands before it. -/
def makeSteps (d : Disk) (here : Location) : List Path.Part → Except Fault Disk
  | [] => .ok d
  | .name s :: rest =>
    let there := here ++ [s]
    match d.get? there with
    | none => (d.set there .directory).makeSteps there rest
    | some .directory => d.makeSteps there rest
    | some (.file _) => .error (if rest.isEmpty then .exists else .notDirectory)
  | .up :: rest => d.makeSteps here.dropLast rest
  | _ :: rest => d.makeSteps here rest

/-- Makes a directory and those above it, where they are missing. -/
def makeDirectories (d : Disk) (p : Path) : Except Fault Disk :=
  d.makeSteps [] (d.current.join p).parts

/-- Puts text into a file of an existing directory, in place of what it held. -/
def writeText (d : Disk) (p : Path) (s : String) : Except Fault Disk := do
  let loc ← d.locate p
  match d.get? loc with
  | some .directory => .error .isDirectory
  | _ => .ok (d.set loc (.file (.text s)))

/-- Puts a file with the given content at a path and makes the directories above it. -/
def put (d : Disk) (p : Path) (c : Content) : Except Fault Disk := do
  let p := (d.current.join p).normal
  let d ← d.makeDirectories (p.parent?.getD p)
  let loc ← d.locate p
  match d.get? loc with
  | some .directory => .error .isDirectory
  | _ => .ok (d.set loc (.file c))

/-- Takes away the entry that a path leads to and everything below it; none if there is none. -/
def remove? (d : Disk) (p : Path) : Option Disk :=
  match d.locate p with
  | .error _ => none
  | .ok loc =>
    if (d.get? loc).isNone then none
    else some { d with entries := d.entries.filter fun (l, _) => !loc.isPrefixOf l }

end Disk

end LightHeaders
