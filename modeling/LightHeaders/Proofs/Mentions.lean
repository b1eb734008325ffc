import LightHeaders.Proofs.Names

set_option autoImplicit false

/-! # The names in a file

The names that are mentioned in a file are found by one walk over what is declared in it: declared types
that are not built in, what is called and assigned, and the names that stand for values
(`Workspace.mentions`). The walk goes down to the files below and meets each component that is declared
on the way (`Workspace.Sound.mem_walk_iff`).

In alike workspaces the same names are mentioned and lead to the same files
(`Workspace.Alike.filesOf_mentionsIn_eq`).
-/

namespace LightHeaders

open Text

/-! ## Mentions -/

/-- A name as it stands in a file. -/
inductive Mention where
  /-- A declared type that is not built in. -/
  | type (name : String)
  /-- What is called. -/
  | callee (name : String)
  /-- What is assigned, or stands for a value. -/
  | use (name : String)
deriving DecidableEq, Repr

namespace Mention

/-- The name. -/
def name : Mention → String
  | .type name => name
  | .callee name => name
  | .use name => name

/-- Whether the mention makes what it leads to a referenced component. -/
def marks : Mention → Bool
  | .type _ => false
  | _ => true

/-- The mention leads somewhere; only what is called can be native. -/
def Leads (ws : Workspace) (scope : ComponentId) : Mention → Prop
  | .callee name => ∃ t, ws.targetAt? scope name = some t
  | .type name => ∃ id, ws.targetAt? scope name = some (.component id)
  | .use name => ∃ id, ws.targetAt? scope name = some (.component id)

end Mention

/-- The name in an action, as it is mentioned. -/
def Action.mention? : Action → Option Mention
  | .call callee => some (.callee callee)
  | .assign name => some (.use name)
  | .giveBack => none

theorem Action.mention?_of_name? {a : Action} {name : String} (h : a.name? = some name) :
    ∃ m, a.mention? = some m ∧ m.name = name := by
  cases a with
  | call callee => exact ⟨.callee callee, rfl, Option.some.inj h⟩
  | assign target => exact ⟨.use target, rfl, Option.some.inj h⟩
  | giveBack => cases h

theorem Mention.Leads.target {ws : Workspace} {scope : ComponentId} {m : Mention}
    (h : m.Leads ws scope) : ∃ t, ws.targetAt? scope m.name = some t := by
  cases m with
  | callee name => exact h
  | type | use => exact ⟨_, h.choose_spec⟩

namespace Workspace

variable (ws : Workspace)

/-- The types that the arguments of a call go to. Only a callee of the same language asks for any. -/
def argumentTypes (id : ComponentId) (callee : String) : List String :=
  match ws.targetAt? id callee with
  | some (.component function) =>
    if ws.languageAt function = ws.languageAt id then ws.parameterTypes function else []
  | _ => []

/-- The type that a value assigned in a component goes to. -/
def assignedType? (id : ComponentId) (name : String) : Option String :=
  match ws.targetAt? id name with
  | some (.component member) => (ws.kind member).memberType?
  | _ => none

/-- The type that a value given back in a component goes to. -/
def givenBackType? (id : ComponentId) : Option String :=
  ((ws.component id).parent?.bind fun parent => (ws.kind parent).result?).filter (· ≠ "void")

/-- The values in the instruction of a component, by their positions, each with the type that it goes to
if there is one. -/
def values (id : ComponentId) (source : InstructionId) : List (Nat × Option String) :=
  match ws.kind id with
  | .member m => if m.value?.isSome then [(0, some m.type)] else []
  | .operation o =>
    match o.action with
    | .call callee => (List.range (ws.forest.get source).children.length).map fun pos =>
      (pos, (ws.argumentTypes id callee)[pos]?)
    | .assign name => [(0, ws.assignedType? id name)]
    | .giveBack => [(0, ws.givenBackType? id)]
  | _ => []

/-- The mention at a position of an instruction, if a name stands there. -/
def valueMention? (source : InstructionId) (pos : Nat) : Option Mention :=
  (ws.forest.childName? source pos).bind fun text =>
    if Literal.reading text = .name then some (.use text) else none

/-- The mention of a type, if it is not built in. -/
def typeMention? (scope : ComponentId) (type : String) : Option Mention :=
  match (ws.languageAt scope).builtin? type with
  | some _ => none
  | none => some (.type type)

/-- The mentions in the values of a component. -/
def valueMentions (id : ComponentId) : List Mention :=
  match (ws.component id).instruction? with
  | none => []
  | some source => (ws.values id source).flatMap fun v => (ws.valueMention? source v.1).toList

/-- The mentions in a component itself. An operation that was not made from an instruction has
none. -/
def ownMentions (id : ComponentId) : List Mention :=
  match ws.kind id with
  | .member m => (ws.typeMention? id m.type).toList
  | .function s => (s.result?.bind (ws.typeMention? id)).toList
  | .operation o =>
    if (ws.component id).instruction?.isSome then o.action.mention?.toList else []
  | _ => []

/-- The names that are mentioned in a component, in order. -/
def mentions (id : ComponentId) : List Mention := ws.ownMentions id ++ ws.valueMentions id

/-- The values of a component that are checked against a type. -/
def checks (id : ComponentId) : List InstructionId :=
  match (ws.component id).instruction? with
  | none => []
  | some source => (ws.values id source).flatMap fun v =>
    (v.2.bind fun _ => ws.forest.childId? source v.1).toList

/-! ## The walk over a file -/

/-- What is declared in a component, itself included, up to the next file and at most `depth` levels
deep. -/
def walkWithin : Nat → ComponentId → List ComponentId
  | 0, _ => []
  | depth + 1, id =>
    if ws.isFile id then [] else id :: (ws.component id).childIds.flatMap (walkWithin depth)

/-- What is declared in a file, without what is in files below it. -/
def walk (file : ComponentId) : List ComponentId :=
  (ws.component file).childIds.flatMap (ws.walkWithin ws.size)

/-- The names that are mentioned in a file, each with the component it stands in. -/
def mentionsIn (file : ComponentId) : List (ComponentId × Mention) :=
  (ws.walk file).flatMap fun x => (ws.mentions x).map (x, ·)

/-- The other files that mentions in `file` lead to, in order. -/
def filesOf (file : ComponentId) (ms : List (ComponentId × Mention)) : List ComponentId :=
  ms.filterMap fun p =>
    match ws.targetAt? p.1 p.2.name with
    | some (.component id) => (ws.fileOf? id).filter (· ≠ file)
    | _ => none

/-- The libraries of the native functions that mentions lead to, in order. -/
def librariesOf (ms : List (ComponentId × Mention)) : List String :=
  ms.filterMap fun p =>
    match ws.targetAt? p.1 p.2.name with
    | some (.native function) => some function.library
    | _ => none

/-- `x` is declared in `file`, with no other file between them. -/
inductive DeclaredIn (file : ComponentId) : ComponentId → Prop
  | child {x : ComponentId} (mem : x ∈ (ws.component file).childIds)
      (noFile : ws.isFile x = false) : DeclaredIn file x
  | deeper {x y : ComponentId} (outer : DeclaredIn file y) (mem : x ∈ (ws.component y).childIds)
      (noFile : ws.isFile x = false) : DeclaredIn file x

end Workspace

/-! ## Alike workspaces -/

namespace Workspace.Alike

variable {ws ws' : Workspace} (h : ws.Alike ws')

include h

/-- Which values are names, and what the names are, is the same in alike workspaces. -/
theorem valueMention?_eq (source : InstructionId) (pos : Nat) :
    ws'.valueMention? source pos = ws.valueMention? source pos := by
  simp only [valueMention?, Forest.childName?, Forest.child?, h.childId?_eq]
  cases ws.forest.childId? source pos with
  | none => rfl
  | some child =>
    have hliteral : ∀ {text : String}, (Literal.reading text).isValue = true →
        Literal.reading text ≠ .name := by
      intro text hvalue hname
      rw [hname] at hvalue
      cases hvalue
    simp only [Option.map_some, Option.bind_some]
    rcases h.name_eq_or child with heq | ⟨hnew, hold⟩
    · rw [heq]
    · rw [if_neg (hliteral hnew), if_neg (hliteral hold)]

theorem typeMention?_eq (scope : ComponentId) (type : String) :
    ws'.typeMention? scope type = ws.typeMention? scope type := by
  simp only [typeMention?, h.languageAt_eq]

theorem values_eq (id : ComponentId) (source : InstructionId) :
    ws'.values id source = ws.values id source := by
  have hargument : ∀ callee, ws'.argumentTypes id callee = ws.argumentTypes id callee := fun callee => by
    simp only [argumentTypes, h.targetAt?_eq, h.languageAt_eq, h.parameterTypes_eq]
  have hassigned : ∀ name, ws'.assignedType? id name = ws.assignedType? id name := fun name => by
    simp only [assignedType?, h.targetAt?_eq, h.memberType?_eq]
  have hback : ws'.givenBackType? id = ws.givenBackType? id := by
    simp only [givenBackType?, h.parent?_eq, h.of_kind Kind.result? Kind.result?_still]
  simp only [values, hargument, hassigned, hback, h.children_eq]
  rcases Kind.cases_of_still_eq (h.kind_eq id) with heq | ⟨o, o', hk, hk', haction⟩ | ⟨f, f', hk, hk'⟩
  · rw [heq]
  · rw [hk, hk']
    simp only [haction]
  · rw [hk, hk']

theorem ownMentions_eq (id : ComponentId) : ws'.ownMentions id = ws.ownMentions id := by
  simp only [ownMentions, h.instruction?_eq, funext (h.typeMention?_eq id)]
  rcases Kind.cases_of_still_eq (h.kind_eq id) with heq | ⟨o, o', hk, hk', haction⟩ | ⟨f, f', hk, hk'⟩
  · rw [heq]
  · rw [hk, hk']
    simp only [haction]
  · rw [hk, hk']

theorem mentions_eq (id : ComponentId) : ws'.mentions id = ws.mentions id := by
  simp only [mentions, h.ownMentions_eq, valueMentions, h.instruction?_eq, h.values_eq,
    h.valueMention?_eq]

theorem walkWithin_eq (depth : Nat) (id : ComponentId) :
    ws'.walkWithin depth id = ws.walkWithin depth id := by
  induction depth generalizing id with
  | zero => rfl
  | succ depth ih => rw [walkWithin, walkWithin, h.isFile_eq, h.childIds_eq, funext ih]

theorem mentionsIn_eq (file : ComponentId) : ws'.mentionsIn file = ws.mentionsIn file := by
  simp only [mentionsIn, walk, h.childIds_eq, h.size_eq, funext (h.walkWithin_eq ws.size),
    h.mentions_eq]

/-- **The names in a file lead to the same files in alike workspaces.** -/
theorem filesOf_mentionsIn_eq (file : ComponentId) :
    ws'.filesOf file (ws'.mentionsIn file) = ws.filesOf file (ws.mentionsIn file) := by
  simp only [filesOf, h.mentionsIn_eq, h.targetAt?_eq, h.fileOf?_eq]

end Workspace.Alike

/-! ## The walk reaches what is declared in the file -/

namespace Workspace

variable {ws : Workspace} {f : ComponentId}

variable {id x : ComponentId}

theorem DeclaredIn.isFile_eq (h : ws.DeclaredIn f x) : ws.isFile x = false := by
  cases h with
  | child _ noFile | deeper _ _ noFile => exact noFile

theorem self_mem_walkWithin (hno : ws.isFile id = false) (depth : Nat) :
    id ∈ ws.walkWithin (depth + 1) id := by
  simp [walkWithin, hno]

theorem declaredIn_of_mem_walkWithin (depth : Nat) (hid : ws.isFile id = false → ws.DeclaredIn f id)
    (h : x ∈ ws.walkWithin depth id) :
    ws.DeclaredIn f x := by
  induction depth generalizing id with
  | zero => cases h
  | succ depth ih =>
    rw [walkWithin] at h
    split at h
    · cases h
    · next hno =>
      have hno : ws.isFile id = false := by simpa using hno
      rcases List.mem_cons.mp h with rfl | h
      · exact hid hno
      · obtain ⟨child, hchild, hx⟩ := List.mem_flatMap.mp h
        exact ih (fun hfile => .deeper (hid hno) hchild hfile) hx

theorem Sound.mem_walkWithin_child (hs : ws.Sound) (depth : Nat) {y : ComponentId}
    (hdepth : ws.size ≤ id + depth) (hy : y ∈ ws.walkWithin depth id) (hx : x ∈ (ws.component y).childIds)
    (hno : ws.isFile x = false) :
    x ∈ ws.walkWithin depth id := by
  induction depth generalizing id with
  | zero => cases hy
  | succ depth ih =>
    rw [walkWithin] at hy ⊢
    split at hy
    · cases hy
    · next hfile =>
      rw [if_neg hfile]
      refine .tail _ (List.mem_flatMap.mpr ?_)
      rcases List.mem_cons.mp hy with rfl | hy
      · -- the child is there, so there is a level left for it
        obtain ⟨hlt, -, hlater⟩ := hs.of_mem_childIds hx
        obtain ⟨depth', rfl⟩ : ∃ depth', depth = depth' + 1 := by
          refine Nat.exists_eq_add_one.mpr (Nat.pos_of_ne_zero fun hzero => ?_)
          have hle : x < y + (0 + 1) := lt_of_lt_of_le hlt (hzero ▸ hdepth)
          exact Nat.not_le_of_lt hlater (Nat.lt_succ_iff.mp hle)
        exact ⟨x, hx, self_mem_walkWithin hno depth'⟩
      · obtain ⟨child, hchild, hy⟩ := List.mem_flatMap.mp hy
        have hlater := (hs.of_mem_childIds hchild).2.2
        refine ⟨child, hchild, ih ?_ hy⟩
        calc ws.size ≤ id + (depth + 1) := hdepth
          _ = id + 1 + depth := (Nat.add_right_comm id 1 depth).symm
          _ ≤ child + depth := Nat.add_le_add_right hlater depth

/-- **The walk over a file meets just what is declared in it.** -/
theorem Sound.mem_walk_iff (hs : ws.Sound) : x ∈ ws.walk f ↔ ws.DeclaredIn f x := by
  constructor
  · intro h
    obtain ⟨child, hchild, hx⟩ := List.mem_flatMap.mp h
    exact declaredIn_of_mem_walkWithin ws.size (fun hno => .child hchild hno) hx
  · intro h
    induction h with
    | child mem noFile =>
      obtain ⟨hlt, -⟩ := hs.of_mem_childIds mem
      obtain ⟨depth, hdepth⟩ : ∃ depth, ws.size = depth + 1 :=
        Nat.exists_eq_add_one.mpr (Nat.zero_lt_of_lt hlt)
      refine List.mem_flatMap.mpr ⟨_, mem, ?_⟩
      rw [hdepth]
      exact self_mem_walkWithin noFile depth
    | deeper _ mem noFile ih =>
      obtain ⟨child, hchild, hy⟩ := List.mem_flatMap.mp ih
      refine List.mem_flatMap.mpr ⟨child, hchild, ?_⟩
      exact hs.mem_walkWithin_child ws.size (Nat.le_add_left _ _) hy mem noFile

theorem Sound.mem_mentionsIn (hs : ws.Sound) (hx : ws.DeclaredIn f x) {m : Mention}
    (hm : m ∈ ws.mentions x) : (x, m) ∈ ws.mentionsIn f :=
  List.mem_flatMap.mpr ⟨x, hs.mem_walk_iff.mpr hx, List.mem_map_of_mem hm⟩

theorem mem_filesOf {ms : List (ComponentId × Mention)} {p : ComponentId × Mention} (hp : p ∈ ms)
    {g : ComponentId} (hleads : ws.targetAt? p.1 p.2.name = some (.component id))
    (hg : ws.fileOf? id = some g) (hne : g ≠ f) : g ∈ ws.filesOf f ms := by
  refine List.mem_filterMap.mpr ⟨p, hp, ?_⟩
  rw [hleads]
  simp [hg, hne]

end Workspace

end LightHeaders
