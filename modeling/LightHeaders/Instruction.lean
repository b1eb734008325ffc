set_option autoImplicit false

/-! # Instructions

A source is read into **instructions**: an operation, what it is about, an optional type, settings
and child instructions in order. All instructions of all sources stand in one **forest** and are
known by the order in which they were added (`InstructionId`). An instruction is added below one
that is already there, so a child always has the greater number, and the tree below an instruction
(`Forest.tree`) is finite.

Once the text generated for an instruction is written, the instruction carries the line it is on.
-/

namespace LightHeaders

/-- The number of an instruction in the forest. -/
abbrev InstructionId := Nat

/-- One instruction. -/
structure Instruction where
  /-- The operation: `function`, `declare`, `call` and so on. -/
  op : String
  /-- What the operation is about; for a value, its text. -/
  name : String
  /-- The declared type. -/
  type? : Option String := none
  /-- The settings, in order. -/
  attributes : List (String × String) := []
  /-- The child instructions, in order. -/
  children : List InstructionId := []
  /-- The line of the generated text, a number without a bound. -/
  line? : Option Nat := none
deriving DecidableEq, Repr, Inhabited

/-- The first setting with the given key. -/
def Instruction.attribute? (i : Instruction) (key : String) : Option String :=
  i.attributes.lookup key

/-- The operation of the instruction that holds a whole source. -/
def rootOp : String := "file"

/-- The instruction that holds a whole source. -/
def Instruction.root : Instruction := { op := rootOp, name := "" }

namespace InstructionId

/-- The number that stands for no instruction. -/
def absent : InstructionId := 4294967295

/-- Whether the number can stand for an instruction. -/
def isValid (id : InstructionId) : Bool := id != absent

/-- The number as diagnostics show it. -/
def describe (id : InstructionId) : String :=
  if isValid id then "LinearId(" ++ toString id ++ ")" else "LinearId::INVALID"

end InstructionId

/-! ## The forest -/

/-- All instructions, in the order in which they were added. -/
structure Forest where
  nodes : Array Instruction := #[]
deriving Inhabited

/-- An instruction with everything below it. -/
inductive InstructionTree where
  | node (id : InstructionId) (head : Instruction) (children : List InstructionTree)
deriving Inhabited

namespace Forest

/-- How many instructions there are. -/
def size (f : Forest) : Nat := f.nodes.size

/-- The instruction with the given number. -/
def get (f : Forest) (id : InstructionId) : Instruction := f.nodes.getD id default

/-- The forest with one instruction changed. -/
def modify (f : Forest) (id : InstructionId) (g : Instruction → Instruction) : Forest :=
  { f with nodes := f.nodes.modify id g }

/-- Adds an instruction that stands below none. -/
def add (f : Forest) (i : Instruction) : InstructionId × Forest :=
  (f.size, { f with nodes := f.nodes.push i })

/-- Adds an instruction as the last child of `parent`. -/
def addChild (f : Forest) (parent : InstructionId) (i : Instruction) : InstructionId × Forest :=
  let (id, f) := f.add i
  (id, f.modify parent fun p => { p with children := p.children ++ [id] })

/-- The number of the child at a position. -/
def childId? (f : Forest) (id : InstructionId) (pos : Nat) : Option InstructionId :=
  (f.get id).children[pos]?

/-- The child at a position. -/
def child? (f : Forest) (id : InstructionId) (pos : Nat) : Option Instruction :=
  (f.childId? id pos).map f.get

/-- The name of the child at a position. -/
def childName? (f : Forest) (id : InstructionId) (pos : Nat) : Option String :=
  (f.child? id pos).map Instruction.name

/-- Renames an instruction. -/
def setName (f : Forest) (id : InstructionId) (name : String) : Forest :=
  f.modify id fun i => { i with name }

/-- Renames the child at a position, if there is one. -/
def setChildName (f : Forest) (id : InstructionId) (pos : Nat) (name : String) : Forest :=
  match f.childId? id pos with
  | some child => f.setName child name
  | none => f

/-- Notes the line of the text generated for an instruction. -/
def stamp (f : Forest) (id : InstructionId) (line : Nat) : Forest :=
  f.modify id fun i => { i with line? := some line }

/-! ### What is where -/

@[simp] theorem size_add (f : Forest) (i : Instruction) : (f.add i).2.size = f.size + 1 := by
  simp [add, size]

@[simp] theorem size_modify (f : Forest) (id : InstructionId) (g : Instruction → Instruction) :
    (f.modify id g).size = f.size := by
  simp [modify, size]

@[simp] theorem size_addChild (f : Forest) (parent : InstructionId) (i : Instruction) :
    (f.addChild parent i).2.size = f.size + 1 := by
  simp [addChild]

theorem get_add_size (f : Forest) (i : Instruction) : (f.add i).2.get f.size = i := by
  simp [add, get, size]

theorem get_add_of_lt (f : Forest) (i : Instruction) {id : InstructionId} (h : id < f.size) :
    (f.add i).2.get id = f.get id := by
  unfold size at h
  simp [add, get, Array.getElem_push, h, Nat.lt_succ_of_lt h]

theorem get_modify (f : Forest) (id : InstructionId) (g : Instruction → Instruction)
    {other : InstructionId} (h : other < f.size) :
    (f.modify id g).get other = if id = other then g (f.get other) else f.get other := by
  unfold size at h
  simp [modify, get, Array.getElem_modify, h]

/-! ### Trees -/

/-- The tree below an instruction, cut off below the given depth. -/
def treeWithin (f : Forest) : Nat → InstructionId → InstructionTree
  | 0, id => .node id (f.get id) []
  | depth + 1, id => .node id (f.get id) ((f.get id).children.map (f.treeWithin depth))

/-- The tree below an instruction. A branch that ends meets no instruction twice, so none is longer
than the count of instructions. -/
def tree (f : Forest) (id : InstructionId) : InstructionTree := f.treeWithin f.size id

/-- The trees below the children of an instruction. -/
def body (f : Forest) (id : InstructionId) : List InstructionTree :=
  match f.tree id with
  | .node _ _ children => children

end Forest

end LightHeaders
