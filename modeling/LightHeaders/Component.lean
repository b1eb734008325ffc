import LightHeaders.Assoc
import LightHeaders.Buffer
import LightHeaders.CFunction
import LightHeaders.Instruction
import LightHeaders.Language
import LightHeaders.Text.Printable

set_option autoImplicit false

/-! # Components

A **component** is what a program declares: a namespace, a class, a structure, a file, a function,
a member or an operation in a function's body. Components form trees. A component knows its
children by name and in the order of their declaration, and it collects the text generated for it.

Components are known by the order in which they were made (`ComponentId`), and so are projects.
-/

namespace LightHeaders

/-- The number of a component. -/
abbrev ComponentId := Nat

/-- The number of a project. -/
abbrev ProjectId := Nat

/-- The number of a component as diagnostics show it. -/
def ComponentId.describe (id : ComponentId) : String := "ComponentId(" ++ toString id ++ ")"

/-- What a name refers to. -/
inductive Target where
  | component (id : ComponentId)
  | native (f : CFunction)
deriving DecidableEq, Repr

/-! ## Kinds of component -/

/-- A source file, or a directory of them. -/
structure SourceFile where
  path : Path
  isDirectory : Bool
  /-- Its contents have been asked for. -/
  loaded : Bool := false
  /-- Its references have been asked for. -/
  settled : Bool := false
  /-- The language, known once the source has been read. -/
  language? : Option Language := none
  /-- The native libraries it uses, in the order of first use. -/
  libraries : List String := []
  /-- The output paths that its text includes so far. -/
  included : List String := []
  /-- The other files it refers to, in the order of first reference. -/
  dependencies : List ComponentId := []
  /-- The number of the next line of its text. Lines are counted without a bound. -/
  nextLine : Nat := 1
  /-- Where its text goes, once that is decided. -/
  output? : Option Path := none
  /-- The project whose root it is. -/
  project? : Option ProjectId := none
deriving DecidableEq, Repr

/-- The file as diagnostics show it. -/
def SourceFile.describe (f : SourceFile) : String :=
  let language :=
    match f.language? with
    | none => "None"
    | some .light => "Some(Light)"
    | some .cpp => "Some(Cpp)"
  "FileData \x7b path: " ++ Text.quoteVisible f.path.text ++ ", loaded: " ++ toString f.loaded
    ++ ", language: " ++ language ++ ", .. \x7d"

/-- What a function declares. -/
structure Signature where
  /-- The result type; none if there is no result. -/
  result? : Option String := none
  /-- The parameters, in order. -/
  params : List ComponentId := []
deriving DecidableEq, Repr

/-- What a member declares. -/
structure Member where
  type : String
  /-- Whether it is a parameter of a function. -/
  isParam : Bool := false
  /-- The instruction that holds its first value. -/
  value? : Option InstructionId := none
deriving DecidableEq, Repr

/-- What an operation does. -/
inductive Action where
  | call (callee : String)
  | assign (target : String)
  | giveBack
deriving DecidableEq, Repr

/-- An operation in the body of a function. -/
structure Operation where
  action : Action
  /-- What the name in it refers to, once that is known. -/
  target? : Option Target := none
deriving DecidableEq, Repr

/-- The kinds of component. -/
inductive Kind where
  | space
  | classType
  | structType
  | file (f : SourceFile)
  | function (s : Signature)
  | member (m : Member)
  | operation (o : Operation)
deriving DecidableEq, Repr, Inhabited

namespace Kind

/-- The word for a kind in messages. -/
def describe : Kind → String
  | .space => "namespace"
  | .classType => "class"
  | .structType => "struct"
  | .file _ => "file"
  | .function _ => "function"
  | .member _ => "member"
  | .operation _ => "operation"

/-- Whether components of the kind hold declarations of their own. -/
def isContainer : Kind → Bool
  | .space | .classType | .structType | .file _ => true
  | _ => false

/-- The file, if the kind is one. -/
def file? : Kind → Option SourceFile
  | .file f => some f
  | _ => none

/-- Whether the kind is a file. -/
def isFile (k : Kind) : Bool := k.file?.isSome

/-- The kind with its file changed, if it is one. -/
def mapFile (g : SourceFile → SourceFile) : Kind → Kind
  | .file f => .file (g f)
  | k => k

/-- The declared type, if the kind is a member. -/
def memberType? : Kind → Option String
  | .member m => some m.type
  | _ => none

/-- The result type, if the kind is a function that has one. -/
def result? : Kind → Option String
  | .function s => s.result?
  | _ => none

/-- The parameters, if the kind is a function. -/
def params : Kind → List ComponentId
  | .function s => s.params
  | _ => []

end Kind

/-! ## Components -/

/-- One component. -/
structure Component where
  name : String
  kind : Kind
  parent? : Option ComponentId := none
  /-- The children by name. -/
  children : List (String × ComponentId) := []
  /-- The children in the order of their declaration. -/
  childIds : List ComponentId := []
  /-- The settings that came with its instruction. -/
  settings : List (String × String) := []
  /-- The instruction it was made from. -/
  instruction? : Option InstructionId := none
  /-- Something refers to it. -/
  referenced : Bool := false
  /-- Its text has been asked for since it was last cleared. -/
  written : Bool := false
  /-- Its text so far. -/
  buffer : Buffer := {}
  /-- The component that gets its text in place of the parent. -/
  forward? : Option ComponentId := none
deriving DecidableEq, Repr, Inhabited

namespace Component

/-- The child with the given name. -/
def child? (c : Component) (name : String) : Option ComponentId := c.children.lookup name

/-- The value of a setting; of two with one key the later one counts. -/
def setting? (c : Component) (key : String) : Option String := c.settings.reverse.lookup key

/-- The file, if the component is one. -/
def file? (c : Component) : Option SourceFile := c.kind.file?

/-- The component with one more child; a child of the same name is replaced in its place. -/
def addChild (c : Component) (name : String) (id : ComponentId) : Component :=
  { c with
    children := Assoc.put name id c.children
    childIds :=
      match c.child? name with
      | some previous => c.childIds.replace previous id
      | none => c.childIds ++ [id] }

@[simp] theorem child?_addChild_self (c : Component) (name : String) (id : ComponentId) :
    (c.addChild name id).child? name = some id := by
  simp [addChild, child?]

theorem child?_addChild_of_ne (c : Component) {name other : String} (h : other ≠ name)
    (id : ComponentId) : (c.addChild name id).child? other = c.child? other := by
  simp [addChild, child?, Assoc.lookup_put_of_ne h]

end Component

end LightHeaders
