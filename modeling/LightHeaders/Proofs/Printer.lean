import LightHeaders.Proofs.Bare

set_option autoImplicit false

/-! # The printer

What the text of a component is, as a function of the workspace: a component with everything below it
is printed by recursion over the tree, four blanks to a level, with no buffers and no order of
events (`print`). The text of a header is the lines of its includes, then of what is lifted to the
scope of the file, then of what stands in it (`headerLines`).

The printer is for workspaces with all files loaded: names are resolved without loading anything. A
name that leads nowhere, and a class or a structure, have no text.
-/

namespace LightHeaders

open Text

/-- A line of a header, with the component whose line it is. -/
structure HeaderLine where
  owner? : Option ComponentId := none
  text : String
deriving DecidableEq, Repr

/-- The text of lines. -/
def HeaderLine.joined (lines : List HeaderLine) : String :=
  String.join (lines.map fun l => l.text ++ "\n")

@[simp] theorem HeaderLine.joined_nil : joined [] = "" := rfl

theorem HeaderLine.joined_append (a b : List HeaderLine) : joined (a ++ b) = joined a ++ joined b := by
  simp [joined]

theorem HeaderLine.joined_singleton (l : HeaderLine) : joined [l] = l.text ++ "\n" := by
  simp [joined, String.join]

namespace Workspace

variable (ws : Workspace)

/-! ## Spelling -/

/-- The text of a type. -/
def typeText (scope : ComponentId) : Option String → Option String
  | none => some "void"
  | some type =>
    match (ws.languageAt scope).builtin? type with
    | some b => some b.cpp
    | none =>
      match ws.targetAt? scope type with
      | some (.component target) => some (ws.qualifiedName target)
      | _ => none

/-- The text of the child of an instruction at a position. -/
def valueText (scope : ComponentId) (source : InstructionId) (pos : Nat) : Option String :=
  match ws.forest.childName? source pos with
  | none => some ""
  | some text =>
    if Literal.reading text = .name then (ws.targetAt? scope text).map ws.spelling else some text

/-- The text of what an operation refers to. -/
def targetText (scope : ComponentId) (target? : Option Target) (name : String) : Option String :=
  (target?.or (ws.targetAt? scope name)).map ws.spelling

/-- The text of an operation. -/
def statementText (id : ComponentId) (source : InstructionId) (o : Operation) : Option String :=
  match o.action with
  | .call callee => do
    let function ← ws.targetText id o.target? callee
    let arguments ← (List.range (ws.forest.get source).children.length).mapM (ws.valueText id source)
    return function ++ "(" ++ glue ", " arguments ++ ");"
  | .assign name => do
    let member ← ws.targetText id o.target? name
    let value ← ws.valueText id source 0
    return member ++ " = " ++ value ++ ";"
  | .giveBack =>
    match ws.forest.childName? source 0 with
    | none => some "return;"
    | some _ => (ws.valueText id source 0).map fun value => "return " ++ value ++ ";"

/-- The text of a member. -/
def memberText (id : ComponentId) (m : Member) : Option String := do
  let type ← ws.typeText id (some m.type)
  let name := (ws.component id).name
  match m.value?, (ws.component id).instruction? with
  | some _, some source => do
    let value ← ws.valueText id source 0
    return type ++ " " ++ name ++ " = " ++ value ++ ";"
  | _, _ => return type ++ " " ++ name ++ ";"

/-- The text of a parameter. -/
def paramText (function param : ComponentId) : Option String :=
  (ws.typeText function (ws.kind param).memberType?).map fun type =>
    type ++ " " ++ (ws.component param).name

/-- The head of a function. -/
def headText (id : ComponentId) (s : Signature) : Option String := do
  let result ← ws.typeText id s.result?
  let params ← s.params.mapM (ws.paramText id)
  let c := ws.component id
  return Build.specifiers c ++ result ++ " " ++ c.name ++ "(" ++ glue ", " params ++ ") \x7b"

/-! ## Printing -/

/-- A line at a level. -/
def lineAt (level : Nat) (owner? : Option ComponentId) (text : String) : HeaderLine :=
  { owner?, text := String.ofList (blanks (4 * level)) ++ text }

/-- The children of a component whose text stands in its own. -/
def inlineChildren (id : ComponentId) (prune : Bool) : List ComponentId :=
  (ws.writtenChildren id prune).filter fun child => (ws.component child).forward?.isNone

/-- The lines of some components, one after the other. -/
def printAll (print : ComponentId → Option (List HeaderLine)) :
    List ComponentId → Option (List HeaderLine)
  | [] => some []
  | id :: ids => do
    let first ← print id
    let rest ← printAll print ids
    return first ++ rest

/-- The lines of a component with a body: its head, its children one level deeper, and the end. -/
def block (print : ComponentId → Option (List HeaderLine)) (level : Nat) (id : ComponentId)
    (head : String) (prune : Bool) : Option (List HeaderLine) :=
  (printAll print (ws.inlineChildren id prune)).map fun inner =>
    lineAt level (some id) head :: inner ++ [lineAt level none "\x7d"]

/-- The lines of a component itself, with `print` for what is one level deeper. -/
def printOwn (print : ComponentId → Option (List HeaderLine)) (level : Nat) (id : ComponentId) :
    Kind → Option (List HeaderLine)
  | .space => ws.block print level id ("namespace " ++ (ws.component id).name ++ " \x7b") true
  | .function s => (ws.headText id s).bind fun head => ws.block print level id head false
  | .member m => (ws.memberText id m).map fun text => [lineAt level (some id) text]
  | .operation o =>
    match (ws.component id).instruction? with
    | none => some []
    | some source => (ws.statementText id source o).map fun text => [lineAt level (some id) text]
  | .classType | .structType | .file _ => none

/-- The lines of a component and at most `depth - 1` levels below it. -/
def printWithin : Nat → Nat → ComponentId → Option (List HeaderLine)
  | 0, _, _ => some []
  | depth + 1, level, id =>
    ws.printOwn (printWithin depth (level + 1)) level id (ws.kind id)

/-- The lines of a component with everything below it. -/
def print (level : Nat) (id : ComponentId) : Option (List HeaderLine) :=
  ws.printWithin (ws.size - id) level id

/-- The line that includes a native library. -/
def libraryLine (library : String) : HeaderLine := { text := "#include <" ++ library ++ ">" }

/-- The line that includes a header. -/
def includeLine (path : String) : HeaderLine :=
  { text := "#include \"" ++ Literal.escape path ++ "\"" }

/-- The lines of the body of a file: what is lifted, then what stands in it. -/
def bodyLines (file : ComponentId) : Option (List HeaderLine) := do
  let lifted ← printAll (ws.print 0) (ws.lifted file)
  let own ← printAll (ws.print 0) (ws.inlineChildren file true)
  return lifted ++ own

/-- The lines of the header of a file that includes the given libraries and headers. -/
def headerLines (file : ComponentId) (libraries paths : List String) : Option (List HeaderLine) :=
  (ws.bodyLines file).map fun body => libraries.map libraryLine ++ paths.map includeLine ++ body

/-! ## Printing looks at the bare workspace only -/

section Bare

variable {ws ws' : Workspace} (hb : ws'.bare = ws.bare)

include hb

theorem targetAt?_of_bare (start : ComponentId) (name : String)
    : ws'.targetAt? start name = ws.targetAt? start name :=
  (alike_of_bare hb).targetAt?_eq start name

theorem typeText_of_bare (scope : ComponentId) (type? : Option String) :
    ws'.typeText scope type? = ws.typeText scope type? := by
  cases type? with
  | none => rfl
  | some type => simp only [typeText, languageAt_of_bare hb, targetAt?_of_bare hb, qualifiedName_of_bare hb]

theorem valueText_of_bare (scope : ComponentId) (source : InstructionId) (pos : Nat) :
    ws'.valueText scope source pos = ws.valueText scope source pos := by
  simp only [valueText, childName?_of_bare hb, targetAt?_of_bare hb, funext (spelling_of_bare hb)]

theorem statementText_of_bare (id : ComponentId) (source : InstructionId) (o : Operation) :
    ws'.statementText id source o = ws.statementText id source o := by
  simp only [statementText, targetText, targetAt?_of_bare hb, funext (spelling_of_bare hb),
    (alike_of_bare hb).children_eq, valueText_of_bare hb, funext (valueText_of_bare hb id source),
    childName?_of_bare hb]

theorem memberText_of_bare (id : ComponentId) (m : Member) : ws'.memberText id m = ws.memberText id m := by
  simp only [memberText, typeText_of_bare hb, name_of_bare hb, instruction?_of_bare hb, valueText_of_bare hb]

theorem paramText_of_bare (function param : ComponentId) :
    ws'.paramText function param = ws.paramText function param := by
  simp only [paramText, memberType?_of_bare hb, typeText_of_bare hb, name_of_bare hb]

theorem headText_of_bare (id : ComponentId) (s : Signature) : ws'.headText id s = ws.headText id s := by
  simp only [headText, typeText_of_bare hb, funext (paramText_of_bare hb id), specifiers_of_bare hb,
    name_of_bare hb]

theorem inlineChildren_of_bare (id : ComponentId) (prune : Bool) :
    ws'.inlineChildren id prune = ws.inlineChildren id prune := by
  simp only [inlineChildren, writtenChildren_of_bare hb, forward?_of_bare hb]

theorem printOwn_of_bare (print : ComponentId → Option (List HeaderLine)) (level : Nat) (id : ComponentId) :
    ws'.printOwn print level id (ws'.kind id) = ws.printOwn print level id (ws.kind id) := by
  rcases kind_cases_of_bare hb id with heq | ⟨f, f', hk, hk'⟩
  · rw [heq]
    cases ws.kind id <;> simp only [printOwn, block, inlineChildren_of_bare hb, name_of_bare hb,
      headText_of_bare hb, memberText_of_bare hb, instruction?_of_bare hb, statementText_of_bare hb]
  · rw [hk, hk', printOwn, printOwn]

theorem bodyLines_of_bare (file : ComponentId) : ws'.bodyLines file = ws.bodyLines file := by
  have hwithin : ∀ depth level id, ws'.printWithin depth level id = ws.printWithin depth level id := by
    intro depth
    induction depth with
    | zero => exact fun _ _ => rfl
    | succ depth ih =>
      intro level id
      rw [printWithin, printWithin, printOwn_of_bare hb, funext (ih (level + 1))]
  have hprint : ws'.print 0 = ws.print 0 := funext fun id => by rw [print, size_of_bare hb, hwithin, print]
  simp only [bodyLines, hprint, lifted_of_bare hb, inlineChildren_of_bare hb]

end Bare

/-! ## The bound makes no difference -/

variable {prune : Bool} {child id : ComponentId}

theorem mem_childIds_of_mem_inlineChildren {ws : Workspace}
    (h : child ∈ ws.inlineChildren id prune) : child ∈ (ws.component id).childIds :=
  mem_childIds_of_mem_writtenChildren (List.mem_filter.mp h).1

theorem isFile_of_mem_inlineChildren {ws : Workspace}
    (h : child ∈ ws.inlineChildren id prune) : ws.isFile child = false :=
  isFile_of_mem_writtenChildren (List.mem_filter.mp h).1

theorem forward?_of_mem_inlineChildren {ws : Workspace}
    (h : child ∈ ws.inlineChildren id prune) : (ws.component child).forward? = none :=
  Option.isNone_iff_eq_none.mp (List.mem_filter.mp h).2

variable {print print' : ComponentId → Option (List HeaderLine)}

theorem printAll_congr {ids : List ComponentId} (h : ∀ id ∈ ids, print id = print' id) :
    printAll print ids = printAll print' ids := by
  induction ids with
  | nil => rfl
  | cons id ids ih =>
    rw [printAll, printAll, h id (.head _),
      ih fun other hother => h other (.tail _ hother)]

theorem printAll_filter (keep : ComponentId → Bool) (print : ComponentId → Option (List HeaderLine))
    (ids : List ComponentId) :
    printAll (fun id => if keep id then print id else some []) ids = printAll print (ids.filter keep) := by
  induction ids with
  | nil => rfl
  | cons id ids ih =>
    rw [printAll, ih, List.filter_cons]
    cases keep id with
    | true => rfl
    | false =>
      show (printAll print (ids.filter keep)).bind (fun rest => some ([] ++ rest)) = _
      simp

theorem printOwn_congr (h : ∀ child ∈ (ws.component id).childIds, print child = print' child) (level : Nat)
    (kind : Kind) : ws.printOwn print level id kind = ws.printOwn print' level id kind := by
  have hblock : ∀ head prune, ws.block print level id head prune = ws.block print' level id head prune :=
    fun head prune => by
      rw [block, printAll_congr fun child hchild => h child (mem_childIds_of_mem_inlineChildren hchild),
        block]
  cases kind <;> simp only [printOwn, hblock]

/-- A bound that the tree does not meet makes no difference. -/
theorem Sound.printWithin_eq {ws : Workspace} (hs : ws.Sound) {depth : Nat} (hid : id < ws.size)
    (h : ws.size ≤ id + depth) (level : Nat) :
    ws.printWithin depth level id = ws.print level id := by
  suffices hsame : ∀ (d d' : Nat) (level : Nat) (id : ComponentId), id < ws.size →
      ws.size ≤ id + d → ws.size ≤ id + d' →
      ws.printWithin d level id = ws.printWithin d' level id from
    hsame depth (ws.size - id) level id hid h (Nat.sub_le_iff_le_add'.mp le_rfl)
  intro d
  induction d with
  | zero => exact fun d' level id hid hd _ => absurd hid (Nat.not_lt_of_le hd)
  | succ d ih =>
    intro d' level id hid hd hd'
    cases d' with
    | zero => exact absurd hid (Nat.not_lt_of_le hd')
    | succ d' =>
      rw [printWithin, printWithin]
      refine ws.printOwn_congr (fun child hchild => ?_) level _
      obtain ⟨hlt, -, hafter⟩ := hs.of_mem_childIds hchild
      exact ih d' (level + 1) child hlt (by grind) (by grind)

/-- **The recursion of the printer**: the children of a component are printed one level deeper. -/
theorem Sound.print_eq {ws : Workspace} (hs : ws.Sound) (hid : id < ws.size) (level : Nat) :
    ws.print level id = ws.printOwn (ws.print (level + 1)) level id (ws.kind id) := by
  rw [← hs.printWithin_eq hid (le_trans (Nat.le_succ _) (Nat.le_add_left _ _)) level, printWithin]
  refine ws.printOwn_congr (fun child hchild => ?_) level _
  exact hs.printWithin_eq (hs.of_mem_childIds hchild).1 (Nat.le_add_left _ _) (level + 1)

end Workspace

end LightHeaders
