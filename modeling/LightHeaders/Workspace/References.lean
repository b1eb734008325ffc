import LightHeaders.Workspace.Fit

set_option autoImplicit false

/-! # The references of a file

To **settle** a file is to resolve every name in it, once: what is called and assigned, the names
that stand for values, and the declared types that are not built in. Components that are called,
assigned or stand for values are marked as referenced. Values are checked against the types they go
to. The other files that names lead to become dependencies of the file, in the order in which they
are met.

A file is marked as settled before that, and what is inside a file below it is left to that file.
-/

namespace LightHeaders

namespace Workspace

/-- The types of the parameters of a function. -/
def parameterTypes (ws : Workspace) (id : ComponentId) : List String :=
  (ws.kind id).params.filterMap fun param => (ws.kind param).memberType?

/-- How many components loading a component can make at most. A source of `n` characters has at
most `n + 1` declarations and operations, and a component that is no file or is loaded makes none. -/
def growth (ws : Workspace) (c : Component) : Nat :=
  match c.file? with
  | none => 0
  | some f =>
    if f.loaded then 0
    else
      match ws.disk.readText f.path with
      | .ok source => source.length + 1
      | .error _ => 0

/-- How many components there can be at most after every file is loaded. No chain of children is
longer than that. -/
def capacity (ws : Workspace) : Nat :=
  ws.size + ws.components.toList.foldr (fun c n => ws.growth c + n) 0

end Workspace

namespace Build

/-- Notes that the file of `scope` refers to the file of `target`, if that is another one. -/
def noteDependency (scope target : ComponentId) : Build Unit := do
  let ws ← get
  match ws.fileOf? scope, ws.fileOf? target with
  | some here, some there =>
    if here = there then pure ()
    else
      updateFile here fun f =>
        if f.dependencies.contains there then f
        else { f with dependencies := f.dependencies ++ [there] }
  | _, _ => pure ()

/-- Resolves a declared type that is not built in. -/
def settleType (scope : ComponentId) (type : String) : Build Unit := do
  let language ← languageFor scope
  match language.builtin? type with
  | some _ => pure ()
  | none =>
    let target ← componentNamed scope type
    noteDependency scope target

/-- Resolves the child of an instruction at a position if it is a name, and checks it against the
type it goes to. There need not be a child. -/
def settleValue (scope : ComponentId) (source : InstructionId) (pos : Nat)
    (expected? : Option String) : Build Unit := do
  match (← get).forest.childName? source pos with
  | none => pure ()
  | some value =>
    discard <| languageFor scope
    if Literal.reading value = .name then
      let target ← componentNamed scope value
      markReferenced target
      noteDependency scope target
    match expected? with
    | some expected => fitChild scope expected source pos
    | none => pure ()

/-- Resolves what is called, and checks the arguments where caller and callee speak one
language. -/
def settleCall (id : ComponentId) (source : InstructionId) (callee : String) : Build Target := do
  let target ← targetNamed id callee
  let params ←
    match target with
    | .native _ => pure []
    | .component function => do
      markReferenced function
      noteDependency id function
      let ws ← get
      pure (if ws.languageAt function = ws.languageAt id then ws.parameterTypes function else [])
  let count := (← instruction source).children.length
  (List.range count).forM fun pos => settleValue id source pos params[pos]?
  return target

/-- Resolves what is assigned, and checks the value. -/
def settleAssign (id : ComponentId) (source : InstructionId) (name : String) : Build Target := do
  let member ← componentNamed id name
  markReferenced member
  noteDependency id member
  settleValue id source 0 ((← get).kind member).memberType?
  return .component member

/-- Checks the value that a function gives back. -/
def settleGiveBack (id : ComponentId) (source : InstructionId) : Build Unit := do
  let ws ← get
  let result? := (ws.component id).parent?.bind fun parent => (ws.kind parent).result?
  settleValue id source 0 (result?.filter (· ≠ "void"))

/-- Resolves the names in an operation and notes what it refers to. One that was not made from an
instruction has none. -/
def settleOperation (id : ComponentId) (action : Action) : Build Unit := do
  match (← component id).instruction? with
  | none => pure ()
  | some source =>
    let target? ←
      match action with
      | .call callee => do pure (some (← settleCall id source callee))
      | .assign name => do pure (some (← settleAssign id source name))
      | .giveBack => do
        settleGiveBack id source
        pure none
    update id fun c =>
      match c.kind with
      | .operation o => { c with kind := .operation { o with target? } }
      | _ => c

/-- Resolves the names in a member: its type and its first value. -/
def settleMember (id : ComponentId) (m : Member) : Build Unit := do
  settleType id m.type
  match m.value?, (← component id).instruction? with
  | some _, some source => settleValue id source 0 (some m.type)
  | _, _ => pure ()

/-- Resolves the names in a component itself. -/
def settleOwn (id : ComponentId) : Kind → Build Unit
  | .member m => settleMember id m
  | .function s =>
    match s.result? with
    | some type => settleType id type
    | none => pure ()
  | .operation o => settleOperation id o.action
  | _ => pure ()

/-- Resolves the names in a component and at most `depth - 1` levels below it. -/
def settleWithin : Nat → ComponentId → Build Unit
  | 0, _ => pure ()
  | depth + 1, id => do
    match (← component id).kind with
    | .file _ => pure ()
    | kind =>
      settleOwn id kind
      -- read again: resolving a name can load a file that declares something below `id`
      (← component id).childIds.forM (settleWithin depth)

/-- Loads a file and resolves the names in it, the first time it is asked for. -/
def settle (id : ComponentId) : Build Unit := do
  load id
  match (← component id).file? with
  | none => pure ()
  | some file =>
    if file.settled then pure ()
    else
      -- before the names are resolved: a file that fails is not settled again
      updateFile id fun f => { f with settled := true }
      let ws ← get
      (ws.component id).childIds.forM (settleWithin ws.capacity)

end Build

end LightHeaders
