import LightHeaders.Workspace.Page
import LightHeaders.Workspace.References

set_option autoImplicit false

/-! # Writing components in C++

A component is written with everything below it (`renderWithin`). A file starts with its includes:
the native libraries it uses, then the files it depends on. Then come the functions that stood
inside other functions, inner ones first, and then the declarations in their order. Text is made in
the order in which it stands in the file, so the line numbers are those of the file.

Files inside files, parameters and components whose text is forwarded are not written where they
stand. Where declarations that nothing refers to are left out, that goes for files and namespaces
and not for what is inside a function.

Including a file can mean writing that one first, so the functions here take the action that
includes a file as an argument; `Workspace/Headers.lean` closes the circle.
-/

namespace LightHeaders

namespace Workspace

/-- Whether a component is never written where it stands: a file, or a parameter. -/
def isSetApart (ws : Workspace) (id : ComponentId) : Bool :=
  match ws.kind id with
  | .file _ => true
  | .member m => m.isParam
  | _ => false

/-- The children of a component to be written. With `prune`, those that are not live are left out
if the workspace says so. -/
def writtenChildren (ws : Workspace) (id : ComponentId) (prune : Bool) : List ComponentId :=
  (ws.component id).childIds.filter fun child =>
    !ws.isSetApart child && !(prune && ws.omitUnreferenced && !ws.isLive child)

/-- The forwarded components at most `depth` levels below a component, inner ones before the one
around them. -/
def liftedWithin (ws : Workspace) : Nat → ComponentId → Bool → List ComponentId
  | 0, _, _ => []
  | depth + 1, id, prune =>
    (ws.writtenChildren id prune).flatMap fun child =>
      ws.liftedWithin depth child (ws.kind child = .space)
        ++ if (ws.component child).forward?.isSome then [child] else []

/-- The forwarded components below a file that are to be written, inner ones before the one
around them. -/
def lifted (ws : Workspace) (id : ComponentId) : List ComponentId :=
  ws.liftedWithin (ws.size - id) id true

/-- How a reference to a target is spelled. -/
def spelling (ws : Workspace) : Target → String
  | .native f => f.name
  | .component id => ws.qualifiedName id

/-- The blanks before the text of a component. -/
def margin (ws : Workspace) (id : ComponentId) : String :=
  String.ofList (Text.blanks (4 * ws.depthInFile id))

end Workspace

namespace Build

/-! ## Spelling -/

/-- How a type is spelled as seen from a component; no type is `void`. -/
def cppType (scope : ComponentId) (type? : Option String) : Build String := do
  match type? with
  | none => return "void"
  | some type =>
    let language ← languageFor scope
    match language.builtin? type with
    | some b => return b.cpp
    | none =>
      let target ← componentNamed scope type
      return (← get).spelling (.component target)

/-- How the child of an instruction at a position is spelled: a name as a reference, anything else
as it is. A child that is not there is spelled as nothing. -/
def cppValue (scope : ComponentId) (source : InstructionId) (pos : Nat) : Build String := do
  match (← get).forest.childName? source pos with
  | none => return ""
  | some text =>
    discard <| languageFor scope
    if Literal.reading text = .name then
      let target ← targetNamed scope text
      return (← get).spelling target
    else return text

/-- How what an operation refers to is spelled. If that is not known yet, the name is resolved. -/
def cppTarget (scope : ComponentId) (target? : Option Target) (name : String) :
    Build String := do
  let target ←
    match target? with
    | some target => pure target
    | none => targetNamed scope name
  return (← get).spelling target

/-- The statement of an operation. -/
def cppStatement (id : ComponentId) (source : InstructionId) (o : Operation) :
    Build String := do
  match o.action with
  | .call callee =>
    let function ← cppTarget id o.target? callee
    let count := (← instruction source).children.length
    let arguments ← (List.range count).mapM (cppValue id source)
    return function ++ "(" ++ Text.glue ", " arguments ++ ");"
  | .assign name =>
    let member ← cppTarget id o.target? name
    let value ← cppValue id source 0
    return member ++ " = " ++ value ++ ";"
  | .giveBack =>
    match (← get).forest.child? source 0 with
    | none => return "return;"
    | some _ =>
      let value ← cppValue id source 0
      return "return " ++ value ++ ";"

/-- The declaration of a member. -/
def cppMember (id : ComponentId) (m : Member) : Build String := do
  let type ← cppType id (some m.type)
  let c ← component id
  match m.value?, c.instruction? with
  | some _, some source =>
    let value ← cppValue id source 0
    return type ++ " " ++ c.name ++ " = " ++ value ++ ";"
  | _, _ => return type ++ " " ++ c.name ++ ";"

/-- A parameter in the head of a function. -/
def cppParam (function param : ComponentId) : Build String := do
  let type ← cppType function ((← get).kind param).memberType?
  return type ++ " " ++ (← component param).name

/-- The specifiers that the settings of a function ask for. -/
def specifiers (c : Component) : String :=
  String.join ((["static", "inline"].filter fun s => c.setting? s = some "true").map (· ++ " "))

/-- The head of a function. -/
def cppHead (id : ComponentId) (s : Signature) : Build String := do
  let result ← cppType id s.result?
  let params ← s.params.mapM (cppParam id)
  let c ← component id
  return specifiers c ++ result ++ " " ++ c.name ++ "(" ++ Text.glue ", " params ++ ") \x7b"

/-! ## Writing -/

/-- Adds an indented line to a component that its instruction remembers. -/
def addIndented (id : ComponentId) (line : String) : Build Unit := do
  write id ((← get).margin id)
  writeLine id line

/-- Adds the line that closes a component. -/
def addClosing (id : ComponentId) : Build Unit := do
  write id ((← get).margin id)
  writePlainLine id "\x7d"

/-- Adds the text of the children of a component that are written where they stand. -/
def addChildren (render : ComponentId → Build String) (id : ComponentId) (prune : Bool) :
    Build Unit := do
  ((← get).writtenChildren id prune).forM fun child => do
    if (← component child).forward?.isNone then
      let text ← render child
      write id text

/-- Adds the text of a file to it. -/
def addFileText (includeFile : ComponentId → ComponentId → Build Unit)
    (render : ComponentId → Build String) (id : ComponentId) : Build Unit := do
  settle id
  match (← component id).file? with
  | none => pure ()
  | some file =>
    -- both lists are complete: settling the file resolved every name in it
    file.libraries.forM fun library => writePlainLine id ("#include <" ++ library ++ ">")
    file.dependencies.forM (includeFile id)
  -- the text of each is forwarded, so there is nothing to add here
  ((← get).lifted id).forM fun function => discard <| render function
  addChildren render id true

/-- Adds the text of a component to it. -/
def addOwnText (includeFile : ComponentId → ComponentId → Build Unit)
    (render : ComponentId → Build String) (id : ComponentId) (c : Component) : Build Unit := do
  match c.kind with
  | .file _ => addFileText includeFile render id
  | .space =>
    addIndented id ("namespace " ++ c.name ++ " \x7b")
    addChildren render id true
    addClosing id
  | .classType | .structType => throw (.notWritable c.kind.describe c.name)
  | .function s =>
    let head ← cppHead id s
    addIndented id head
    addChildren render id false
    addClosing id
  | .member m =>
    let line ← cppMember id m
    addIndented id line
  | .operation o =>
    match c.instruction? with
    | none => pure ()
    | some source =>
      let line ← cppStatement id source o
      addIndented id line

/-- Writes a component, with `render` for those below it, and hands its text on. -/
def renderBelow (includeFile : ComponentId → ComponentId → Build Unit)
    (render : ComponentId → Build String) (id : ComponentId) : Build String := do
  let c ← component id
  update id fun c => { c with written := true }
  addOwnText includeFile render id c
  handOn id

/-- Writes a component and at most `depth - 1` levels below it. -/
def renderWithin (includeFile : ComponentId → ComponentId → Build Unit) :
    Nat → ComponentId → Build String
  | 0, _ => return ""
  | depth + 1, id => renderBelow includeFile (renderWithin includeFile depth) id

/-- Writes a component one level below the one that is asked for, with everything below it. -/
def renderInside (includeFile : ComponentId → ComponentId → Build Unit) (id : ComponentId) :
    Build String := do
  renderWithin includeFile (← get).capacity id

/-- Writes a component with everything below it. The room below it is taken anew for each component
there: headers written for the includes of a file can have changed it. -/
def renderWith (includeFile : ComponentId → ComponentId → Build Unit) (id : ComponentId) :
    Build String :=
  renderBelow includeFile (renderInside includeFile) id

end Build

end LightHeaders
