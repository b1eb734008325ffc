import LightHeaders.Workspace.Ancestry

set_option autoImplicit false

/-! # The text of a component

Text is collected in the buffer of the component it is written for. The file around a component
counts the lines, and the instruction of a component remembers the line that its text ends. The
text of a component is handed to whoever asked for it, or forwarded to another component. Clearing
forgets all text of a component and of what was written below it.
-/

namespace LightHeaders

namespace Build

/-- Adds text to a component. -/
def write (id : ComponentId) (text : String) : Build Unit :=
  update id fun c => { c with buffer := c.buffer.push text }

/-- Ends a line of a component and gives the number of that line in the file around it, or zero
where there is no file. With `stamp` the instruction of the component remembers the line; the
instruction of a file does not. -/
def endLine (id : ComponentId) (stamp : Bool) : Build Nat := do
  write id "\n"
  let ws ← get
  match ws.fileOf? id with
  | none => return 0
  | some file =>
    let line := ((ws.component file).file?.map SourceFile.nextLine).getD 0
    updateFile file fun f => { f with nextLine := f.nextLine + 1 }
    match stamp && !ws.isFile id, (ws.component id).instruction? with
    | true, some source => updateForest fun f => f.stamp source line
    | _, _ => pure ()
    return line

/-- Adds a line to a component that its instruction remembers. -/
def writeLine (id : ComponentId) (text : String) : Build Unit := do
  write id text
  discard <| endLine id true

/-- Adds a line to a component that no instruction remembers. -/
def writePlainLine (id : ComponentId) (text : String) : Build Unit := do
  write id text
  discard <| endLine id false

/-- Hands on the text of a component: to the component it is forwarded to, with nothing left for
the caller, or else to the caller. -/
def handOn (id : ComponentId) : Build String := do
  let c ← component id
  match c.forward? with
  | none => return c.buffer.text
  | some target =>
    write target c.buffer.text
    return ""

/-- Forgets the text of a component and, if it was written, of what is at most `depth - 1` levels
below it. -/
def clearWithin : Nat → ComponentId → Build Unit
  | 0, _ => pure ()
  | depth + 1, id => do
    let c ← component id
    -- a file forgets its lines and includes even if it was not written
    update id fun c => { c with buffer := {}, written := false }
    updateFile id fun f => { f with nextLine := 1, included := [] }
    if c.written then c.childIds.forM (clearWithin depth)

/-- Forgets the text of a component and of what was written below it. A file counts its lines from
one again and has no includes. -/
def clear (id : ComponentId) : Build Unit := do clearWithin ((← get).size - id) id

end Build

end LightHeaders
