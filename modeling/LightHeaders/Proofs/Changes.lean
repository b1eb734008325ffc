import LightHeaders.Compiler
import Mathlib.Logic.Relation
import Mathlib.Tactic.Set

set_option autoImplicit false

/-! # What work can do to a workspace

All work on a workspace comes down to the changes listed here (`Change`): a component is added, one
field of a component is edited, an instruction is added, renamed or gets its line, or one of the
tables beside them changes. A component never loses its name, its parent or its being a file, and
children change only when one is added.

`Workspace.Sound` is what holds of the components and the instructions at any time. It speaks of
the two redundant records that a component keeps of its children, by name and in order, of the
links back, and of the journal: nothing is put down twice, and what is put down has left its mark.
A change keeps it (`Sound.apply`), and so does any row of changes (`Reach.sound`).
-/

namespace LightHeaders

open Workspace

/-! ## The changes -/

/-- A change to one field of a file. -/
inductive FileEdit where
  | loaded
  | settled
  | language (l : Language)
  | library (name : String)
  | dependency (other : ComponentId)
  | lineEnd
  | restart
  | output (p : Path)
  | included (path : String)
  | project (id : ProjectId)

/-- The file after an edit. -/
def FileEdit.apply : FileEdit → SourceFile → SourceFile
  | .loaded, f => { f with loaded := true }
  | .settled, f => { f with settled := true }
  | .language l, f => { f with language? := some l }
  | .library name, f =>
    if f.libraries.contains name then f else { f with libraries := f.libraries ++ [name] }
  | .dependency other, f =>
    if f.dependencies.contains other then f
    else { f with dependencies := f.dependencies ++ [other] }
  | .lineEnd, f => { f with nextLine := f.nextLine + 1 }
  | .restart, f => { f with nextLine := 1, included := [] }
  | .output p, f => { f with output? := some p }
  | .included path, f => { f with included := f.included ++ [path] }
  | .project id, f => { f with project? := some id }

/-- A change to one component. -/
inductive Edit where
  | referenced
  | forward (receiver : ComponentId)
  | settings (more : List (String × String))
  | param (id : ComponentId)
  | resolved (target? : Option Target)
  | source (i : InstructionId)
  | text (s : String)
  | written
  | cleared
  | file (e : FileEdit)

/-- The component after an edit. An edit for another kind leaves it as it is. -/
def Edit.apply : Edit → Component → Component
  | .referenced, c => { c with referenced := true }
  | .forward receiver, c => { c with forward? := some receiver }
  | .settings more, c => { c with settings := c.settings ++ more }
  | .param id, c =>
    match c.kind with
    | .function s => { c with kind := .function { s with params := s.params ++ [id] } }
    | _ => c
  | .resolved target?, c =>
    match c.kind with
    | .operation o => { c with kind := .operation { o with target? } }
    | _ => c
  | .source i, c => { c with instruction? := some i }
  | .text s, c => { c with buffer := c.buffer.push s }
  | .written, c => { c with written := true }
  | .cleared, c => { c with buffer := {}, written := false }
  | .file e, c => { c with kind := c.kind.mapFile e.apply }

/-- A change to a workspace. -/
inductive Change where
  | root (name : String) (kind : Kind)
  | below (parent : ComponentId) (name : String) (kind : Kind) (instruction? : Option InstructionId)
  | edit (id : ComponentId) (e : Edit)
  | plant (i : Instruction)
  | plantBelow (parent : InstructionId) (i : Instruction)
  | rename (id : InstructionId) (name : String)
  | stamp (id : InstructionId) (line : Nat)
  | disk (d : Disk)
  | project (p : Project)
  | active (id? : Option ProjectId)
  | take (output : Path) (owner : ProjectId)
  | prune (flag : Bool)
  | record (e : Event)

/-- The workspace after a change. -/
def Change.apply : Change → Workspace → Workspace
  | .root name kind, ws => ws.add { name, kind }
  | .below parent name kind instruction?, ws =>
    (ws.add { name, kind, parent? := some parent, instruction? }).modify parent
      fun c => c.addChild name ws.size
  | .edit id e, ws => ws.modify id e.apply
  | .plant i, ws => { ws with forest := (ws.forest.add i).2 }
  | .plantBelow parent i, ws => { ws with forest := (ws.forest.addChild parent i).2 }
  | .rename id name, ws => { ws with forest := ws.forest.setName id name }
  | .stamp id line, ws => { ws with forest := ws.forest.stamp id line }
  | .disk d, ws => { ws with disk := d }
  | .project p, ws => { ws with projects := ws.projects.push p }
  | .active id?, ws => { ws with active? := id? }
  | .take output owner, ws => { ws with taken := ws.taken ++ [(output, owner)] }
  | .prune flag, ws => { ws with omitUnreferenced := flag }
  | .record e, ws => { ws with journal := ws.journal ++ [e] }

/-- What happened has left its mark: the file whose source was opened is loaded, and the file whose
header was begun has an output path. -/
def Event.Marked (ws : Workspace) : Event → Prop
  | .opened file => (ws.component file).file?.any SourceFile.loaded = true
  | .begun file => (ws.component file).file?.any (·.output?.isSome) = true

/-- When a change can be made: what it refers to is there, an instruction comes without children,
and what is put down in the journal has left its mark and was not put down before. -/
def Change.Legal (ws : Workspace) : Change → Prop
  | .below parent _ _ instruction? =>
    parent < ws.size ∧ ∀ i, instruction? = some i → i < ws.forest.size
  | .edit _ (.source i) => i < ws.forest.size
  | .plant i => i.children = []
  | .plantBelow parent i => parent < ws.forest.size ∧ i.children = []
  | .project p => p.component < ws.size
  | .record e => e.Marked ws ∧ e ∉ ws.journal
  | _ => True

/-! ## Components after a change -/

section Arrays

variable {α : Type} [Inhabited α] (xs : Array α)

theorem getD_push (x : α) (j : Nat) :
    (xs.push x).getD j default = if j = xs.size then x else xs.getD j default := by
  simp only [Array.getD_eq_getD_getElem?, Array.getElem?_push]
  split <;> rfl

theorem getD_modify (i : Nat) (g : α → α) (j : Nat) : (xs.modify i g).getD j default =
    if j = i ∧ i < xs.size then g (xs.getD j default) else xs.getD j default := by
  simp only [Array.getD_eq_getD_getElem?, Array.getElem?_modify]
  grind

end Arrays

namespace Workspace

theorem component_add (ws : Workspace) (c : Component) (id : ComponentId) :
    (ws.add c).component id = if id = ws.size then c else ws.component id := getD_push ws.components c id

theorem component_modify_eq (ws : Workspace) (id : ComponentId) (g : Component → Component)
    (other : ComponentId) : (ws.modify id g).component other =
      if other = id ∧ id < ws.size then g (ws.component other) else ws.component other :=
  getD_modify ws.components id g other

theorem component_of_size_le (ws : Workspace) {id : ComponentId} (h : ws.size ≤ id) :
    ws.component id = default := by
  unfold size at h
  simp [component, Array.getD_eq_getD_getElem?, h]

theorem modify_keeps {β : Sort*} (ws : Workspace) (id : ComponentId) {g : Component → Component}
    (view : Component → β) (h : ∀ c, view (g c) = view c) (other : ComponentId) :
    view ((ws.modify id g).component other) = view (ws.component other) := by
  rw [component_modify_eq]
  split
  · exact h _
  · rfl

end Workspace

/-! ## What an edit keeps -/

namespace Kind

@[simp] theorem file?_mapFile (g : SourceFile → SourceFile) (k : Kind) :
    (k.mapFile g).file? = k.file?.map g := by
  cases k <;> rfl

@[simp] theorem isFile_mapFile (g : SourceFile → SourceFile) (k : Kind) :
    (k.mapFile g).isFile = k.isFile := by
  cases k <;> rfl

theorem exists_of_describe {k : Kind} (h : k.describe = "function") : ∃ s, k = .function s := by
  cases k with
  | function s => exact ⟨s, rfl⟩
  | _ => simp [describe] at h

end Kind

theorem Component.kind_of_file? {c : Component} {file : SourceFile} (h : c.file? = some file) :
    c.kind = .file file := by
  rw [file?] at h
  cases hkind : c.kind with
  | file f =>
    rw [hkind] at h
    exact congrArg Kind.file (Option.some.inj h)
  | _ =>
    rw [hkind] at h
    cases h

namespace Edit

@[simp] theorem apply_name (e : Edit) (c : Component) : (e.apply c).name = c.name := by
  cases e <;> simp only [apply] <;> split <;> rfl

@[simp] theorem apply_parent? (e : Edit) (c : Component) : (e.apply c).parent? = c.parent? := by
  cases e <;> simp only [apply] <;> split <;> rfl

@[simp] theorem apply_children (e : Edit) (c : Component) : (e.apply c).children = c.children := by
  cases e <;> simp only [apply] <;> split <;> rfl

@[simp] theorem apply_childIds (e : Edit) (c : Component) : (e.apply c).childIds = c.childIds := by
  cases e <;> simp only [apply] <;> split <;> rfl

@[simp] theorem apply_isFile (e : Edit) (c : Component) :
    (e.apply c).kind.isFile = c.kind.isFile := by
  cases e with
  | file e => simp [apply]
  | param | resolved => simp only [apply]; split <;> simp_all [Kind.isFile, Kind.file?]
  | _ => rfl

@[simp] theorem apply_child? (e : Edit) (c : Component) (name : String) :
    (e.apply c).child? name = c.child? name := by
  simp [Component.child?]

theorem apply_instruction? (e : Edit) (c : Component) :
    (e.apply c).instruction? = c.instruction? ∨
      ∃ i, e = .source i ∧ (e.apply c).instruction? = some i := by
  cases e with
  | source i => exact .inr ⟨i, rfl, rfl⟩
  | param | resolved => left; simp only [apply]; split <;> rfl
  | _ => exact .inl rfl

theorem apply_file? (e : Edit) (c : Component) : (e.apply c).file? = c.file? ∨
    ∃ g : FileEdit, e = .file g ∧ (e.apply c).file? = c.file?.map g.apply := by
  cases e with
  | file g => exact .inr ⟨g, rfl, by simp [apply, Component.file?]⟩
  | param | resolved => left; simp only [apply]; split <;> simp_all [Component.file?, Kind.file?]
  | _ => exact .inl rfl

theorem kind_apply (e : Edit) (c : Component) : (e.apply c).kind = c.kind ∨
    (∃ id s, e = .param id ∧ c.kind = .function s ∧
      (e.apply c).kind = .function { s with params := s.params ++ [id] }) ∨
    (∃ t? o, e = .resolved t? ∧ c.kind = .operation o ∧
      (e.apply c).kind = .operation { o with target? := t? }) ∨
    (∃ g f, e = .file g ∧ c.kind = .file f ∧ (e.apply c).kind = .file (g.apply f)) := by
  cases e with
  | param id =>
    cases hk : c.kind with
    | function s => exact .inr (.inl ⟨id, s, rfl, rfl, by simp [apply, hk]⟩)
    | _ => exact .inl (by simp [apply, hk])
  | resolved t? =>
    cases hk : c.kind with
    | operation o => exact .inr (.inr (.inl ⟨t?, o, rfl, rfl, by simp [apply, hk]⟩))
    | _ => exact .inl (by simp [apply, hk])
  | file g =>
    cases hk : c.kind with
    | file f => exact .inr (.inr (.inr ⟨g, f, rfl, rfl, by simp [apply, hk, Kind.mapFile]⟩))
    | _ => exact .inl (by simp [apply, hk, Kind.mapFile])
  | _ => exact .inl rfl

end Edit

namespace FileEdit

theorem loaded_apply (g : FileEdit) (f : SourceFile) :
    (g.apply f).loaded = true ↔ f.loaded = true ∨ g = .loaded := by
  cases g with
  | library | dependency =>
    simp only [apply]
    split <;> simp
  | _ => simp [apply]

theorem settled_apply (g : FileEdit) {f : SourceFile} (h : f.settled = true) :
    (g.apply f).settled = true := by
  cases g with
  | library | dependency =>
    simp only [apply]
    split <;> exact h
  | settled => rfl
  | _ => exact h

theorem output?_apply (e : FileEdit) (f : SourceFile) :
    (e.apply f).output? = f.output? ∨ ∃ p, e = .output p ∧ (e.apply f).output? = some p := by
  cases e with
  | output p => exact .inr ⟨p, rfl, rfl⟩
  | library | dependency =>
    simp only [apply]
    split <;> exact .inl rfl
  | _ => exact .inl rfl

theorem project?_apply (e : FileEdit) (f : SourceFile) :
    (e.apply f).project? = f.project? ∨ ∃ p, e = .project p ∧ (e.apply f).project? = some p := by
  cases e with
  | project p => exact .inr ⟨p, rfl, rfl⟩
  | library | dependency =>
    simp only [apply]
    split <;> exact .inl rfl
  | _ => exact .inl rfl

end FileEdit

/-! ## Soundness -/

/-- What holds of the instructions of a forest: children come later, and no instruction is a child
twice. -/
structure Forest.Sound (f : Forest) : Prop where
  later : ∀ {id c : InstructionId}, c ∈ (f.get id).children → id < c ∧ c < f.size
  nodup : ∀ id : InstructionId, (f.get id).children.Nodup
  parent_unique : ∀ {a b c : InstructionId},
    c ∈ (f.get a).children → c ∈ (f.get b).children → a = b

/-- Nothing is put down twice, and what is put down has left its mark. -/
structure Workspace.Journaled (ws : Workspace) : Prop where
  marked : ∀ e ∈ ws.journal, e.Marked ws
  nodup : ws.journal.Nodup

/-- What holds of a workspace at any time. The children by name and the children in order are the
same; they are there, have the name they are known by and name their parent, which was made before
them. -/
structure Workspace.Sound (ws : Workspace) : Prop where
  parent_lt : ∀ {id p : ComponentId}, (ws.component id).parent? = some p → p < id
  child : ∀ {id c : ComponentId} {name : String}, (ws.component id).child? name = some c →
    c < ws.size ∧ (ws.component c).parent? = some id ∧ (ws.component c).name = name ∧
      c ∈ (ws.component id).childIds
  listed : ∀ {id c : ComponentId}, c ∈ (ws.component id).childIds →
    (ws.component id).child? (ws.component c).name = some c
  nodup : ∀ id : ComponentId, (ws.component id).childIds.Nodup
  instruction_lt : ∀ {id : ComponentId} {i : InstructionId},
    (ws.component id).instruction? = some i → i < ws.forest.size
  project_lt : ∀ p ∈ ws.projects, p.component < ws.size
  forest : ws.forest.Sound
  journal : ws.Journaled

/-- `ws'` has all that `ws` has: components keep their names, their parents and whether they are
files. -/
structure Workspace.Extends (ws ws' : Workspace) : Prop where
  size_le : ws.size ≤ ws'.size
  forest_le : ws.forest.size ≤ ws'.forest.size
  name : ∀ {id : ComponentId}, id < ws.size → (ws'.component id).name = (ws.component id).name
  parent? : ∀ {id : ComponentId}, id < ws.size →
    (ws'.component id).parent? = (ws.component id).parent?
  isFile : ∀ {id : ComponentId}, id < ws.size → ws'.isFile id = ws.isFile id

namespace Workspace

theorem Extends.refl (ws : Workspace) : ws.Extends ws :=
  ⟨Nat.le_refl _, Nat.le_refl _, fun _ => rfl, fun _ => rfl, fun _ => rfl⟩

theorem Extends.trans {a b c : Workspace} (hab : a.Extends b) (hbc : b.Extends c) :
    a.Extends c where
  size_le := Nat.le_trans hab.size_le hbc.size_le
  forest_le := Nat.le_trans hab.forest_le hbc.forest_le
  name h := (hbc.name (Nat.lt_of_lt_of_le h hab.size_le)).trans (hab.name h)
  parent? h := (hbc.parent? (Nat.lt_of_lt_of_le h hab.size_le)).trans (hab.parent? h)
  isFile h := (hbc.isFile (Nat.lt_of_lt_of_le h hab.size_le)).trans (hab.isFile h)

namespace Sound

variable {ws : Workspace}

variable {c id : ComponentId}

theorem of_mem_childIds (h : ws.Sound) (hc : c ∈ (ws.component id).childIds) :
    c < ws.size ∧ (ws.component c).parent? = some id ∧ id < c := by
  obtain ⟨hlt, hp, -⟩ := h.child (h.listed hc)
  exact ⟨hlt, hp, h.parent_lt hp⟩

theorem lt_of_child? (h : ws.Sound) {name : String}
    (hc : (ws.component id).child? name = some c) : c < ws.size :=
  (h.child hc).1

theorem mem_childIds_iff (h : ws.Sound) :
    c ∈ (ws.component id).childIds ↔ ∃ name, (ws.component id).child? name = some c := by
  constructor
  · exact fun hc => ⟨_, h.listed hc⟩
  · rintro ⟨_, hc⟩
    exact (h.child hc).2.2.2

end Sound

end Workspace

/-! ## Changes keep soundness -/

namespace Change

variable {ws : Workspace}

theorem component_below {parent : ComponentId} (hp : parent < ws.size) (name : String) (kind : Kind)
    (instruction? : Option InstructionId) (id : ComponentId) :
    ((below parent name kind instruction?).apply ws).component id =
      if id = ws.size then { name, kind, parent? := some parent, instruction? }
      else if id = parent then (ws.component parent).addChild name ws.size
      else ws.component id := by
  simp only [apply, component_modify_eq, component_add, size_add]
  grind

@[simp] theorem size_below (parent : ComponentId) (name : String) (kind : Kind)
    (instruction? : Option InstructionId) :
    ((below parent name kind instruction?).apply ws).size = ws.size + 1 := by
  simp [apply]

/-- **What a change does to a component**: nothing, or it makes it, adds a child to it or edits
it. -/
theorem component_apply (c : Change) (legal : c.Legal ws) (id : ComponentId) :
    (c.apply ws).component id = ws.component id ∨
    (id = ws.size ∧ ∃ name kind, c = .root name kind ∧
      (c.apply ws).component id = { name, kind }) ∨
    (id = ws.size ∧ ∃ parent name kind instruction?, c = .below parent name kind instruction? ∧
      (c.apply ws).component id = { name, kind, parent? := some parent, instruction? }) ∨
    (id < ws.size ∧ ∃ name kind instruction?, c = .below id name kind instruction? ∧
      (c.apply ws).component id = (ws.component id).addChild name ws.size) ∨
    (id < ws.size ∧ ∃ e, c = .edit id e ∧ (c.apply ws).component id = e.apply (ws.component id)) := by
  cases c with
  | root name kind =>
    rw [apply, component_add]
    split
    · next hid => exact .inr (.inl ⟨hid, name, kind, rfl, rfl⟩)
    · exact .inl rfl
  | below parent name kind instruction? =>
    rw [component_below legal.1]
    split
    · next hid => exact .inr (.inr (.inl ⟨hid, parent, name, kind, instruction?, rfl, rfl⟩))
    · split
      · next hid =>
        subst hid
        exact .inr (.inr (.inr (.inl ⟨legal.1, name, kind, instruction?, rfl, rfl⟩)))
      · exact .inl rfl
  | edit other e =>
    rw [apply, component_modify_eq]
    split
    · next hid =>
      obtain ⟨rfl, hlt⟩ := hid
      exact .inr (.inr (.inr (.inr ⟨hlt, e, rfl, rfl⟩)))
    · exact .inl rfl
  | _ => exact .inl rfl

/-- The kind of the component that a change makes. -/
def newKind? : Change → Option Kind
  | .root _ kind => some kind
  | .below _ _ kind _ => some kind
  | _ => none

/-- What new children do not change of a component, nor its making, only an edit changes. -/
theorem view_apply {β : Type} (view : Component → β)
    (hchild : ∀ c name id, view (c.addChild name id) = view c)
    (c : Change) (legal : c.Legal ws) (id : ComponentId)
    (hnew : id < ws.size ∨ ∀ name kind parent? instruction?, c.newKind? = some kind →
      view { name, kind, parent?, instruction? } = view default) :
    view ((c.apply ws).component id) = view (ws.component id) ∨
      ∃ e, c = .edit id e ∧ (c.apply ws).component id = e.apply (ws.component id) := by
  have hmade : ∀ {name kind parent? instruction?}, id = ws.size → c.newKind? = some kind →
      view { name, kind, parent?, instruction? } = view (ws.component id) := by
    intro name kind parent? instruction? hsize hkind
    rw [ws.component_of_size_le (Nat.le_of_eq hsize.symm)]
    exact (hnew.resolve_left (hsize ▸ Nat.lt_irrefl _)) name kind parent? instruction? hkind
  rcases c.component_apply legal id with heq | ⟨hsize, _, _, hdef, heq⟩ | ⟨hsize, _, _, _, _, hdef, heq⟩ |
    ⟨-, _, _, _, -, heq⟩ | ⟨-, e, hdef, heq⟩
  · exact .inl (by rw [heq])
  · exact .inl (by rw [heq, hmade hsize (by rw [hdef]; rfl)])
  · exact .inl (by rw [heq, hmade hsize (by rw [hdef]; rfl)])
  · exact .inl (by rw [heq, hchild])
  · exact .inr ⟨e, hdef, heq⟩

theorem file?_apply (c : Change) (legal : c.Legal ws) (id : ComponentId) :
    ((c.apply ws).component id).file? = (ws.component id).file? ∨
    (id = ws.size ∧ ∃ kind, c.newKind? = some kind ∧
      ((c.apply ws).component id).file? = kind.file?) ∨
    (id < ws.size ∧ ∃ g, c = .edit id (.file g) ∧
      ((c.apply ws).component id).file? = (ws.component id).file?.map g.apply) := by
  rcases c.component_apply legal id with heq | ⟨hsize, _, kind, rfl, heq⟩ |
    ⟨hsize, _, _, kind, _, rfl, heq⟩ | ⟨-, _, _, _, -, heq⟩ | ⟨hlt, e, rfl, heq⟩
  · rw [heq]
    exact .inl rfl
  · rw [heq]
    exact .inr (.inl ⟨hsize, kind, rfl, rfl⟩)
  · rw [heq]
    exact .inr (.inl ⟨hsize, kind, rfl, rfl⟩)
  · rw [heq]
    exact .inl rfl
  · rw [heq]
    rcases e.apply_file? (ws.component id) with hsame | ⟨g, rfl, hg⟩
    · exact .inl hsame
    · exact .inr (.inr ⟨hlt, g, rfl, hg⟩)

/-- What a component was made from after a change: what it was made from before, or what the change
says of this component and no other. -/
theorem instruction?_apply (c : Change) (legal : c.Legal ws) (id : ComponentId) :
    ((c.apply ws).component id).instruction? = (ws.component id).instruction? ∨
      ∃ i, ((c.apply ws).component id).instruction? = some i ∧
        ((id = ws.size ∧ ∃ parent name kind, c = .below parent name kind (some i)) ∨
          c = .edit id (.source i)) := by
  have hnew : id = ws.size → (ws.component id).instruction? = none := by
    rintro rfl
    rw [ws.component_of_size_le (Nat.le_refl _)]
    rfl
  rcases c.component_apply legal id with heq | ⟨hid, _, _, -, heq⟩ | ⟨hid, p, n, k, i?, hc, heq⟩ |
    ⟨-, _, _, _, -, heq⟩ | ⟨-, e, hc, heq⟩
  · exact .inl (by rw [heq])
  · exact .inl (by rw [heq, hnew hid])
  · rw [heq]
    cases i? with
    | none => exact .inl (hnew hid).symm
    | some i => exact .inr ⟨i, rfl, .inl ⟨hid, p, n, k, hc⟩⟩
  · exact .inl (by rw [heq]; rfl)
  · rw [heq]
    rcases e.apply_instruction? (ws.component id) with hkept | ⟨i, rfl, hi⟩
    · exact .inl hkept
    · exact .inr ⟨i, hi, .inr hc⟩

/-- **The kind of a component after a change**: as before, or new, or with a parameter, a target or an
edit of the file. -/
theorem kind_apply (c : Change) (legal : c.Legal ws) (id : ComponentId) :
    (c.apply ws).kind id = ws.kind id ∨
    (id = ws.size ∧ c.newKind? = some ((c.apply ws).kind id)) ∨
    (∃ p s, c = .edit id (.param p) ∧ ws.kind id = .function s ∧
      (c.apply ws).kind id = .function { s with params := s.params ++ [p] }) ∨
    (∃ t? o, c = .edit id (.resolved t?) ∧ ws.kind id = .operation o ∧
      (c.apply ws).kind id = .operation { o with target? := t? }) ∨
    ∃ g f, c = .edit id (.file g) ∧ ws.kind id = .file f ∧ (c.apply ws).kind id = .file (g.apply f) := by
  rw [kind, kind]
  rcases c.component_apply legal id with heq | ⟨hsize, _, _, rfl, heq⟩ | ⟨hsize, _, _, _, _, rfl, heq⟩ |
    ⟨-, _, _, _, -, heq⟩ | ⟨-, e, rfl, heq⟩
  · exact .inl (by rw [heq])
  · exact .inr (.inl ⟨hsize, by rw [heq]; rfl⟩)
  · exact .inr (.inl ⟨hsize, by rw [heq]; rfl⟩)
  · exact .inl (by rw [heq]; rfl)
  · rw [heq]
    rcases e.kind_apply (ws.component id) with hk | ⟨p, s, rfl, hk⟩ | ⟨t?, o, rfl, hk⟩ | ⟨g, f, rfl, hk⟩
    · exact .inl hk
    · exact .inr (.inr (.inl ⟨p, s, rfl, hk⟩))
    · exact .inr (.inr (.inr (.inl ⟨t?, o, rfl, hk⟩)))
    · exact .inr (.inr (.inr (.inr ⟨g, f, rfl, hk⟩)))

theorem describe_apply (c : Change) (legal : c.Legal ws) {id : ComponentId} (hid : id < ws.size) :
    ((c.apply ws).kind id).describe = (ws.kind id).describe := by
  rcases c.kind_apply legal id with heq | ⟨hsize, -⟩ | ⟨_, _, -, hold, heq⟩ | ⟨_, _, -, hold, heq⟩ |
    ⟨_, _, -, hold, heq⟩
  · rw [heq]
  · exact absurd hsize (Nat.ne_of_lt hid)
  · rw [heq, hold]
    rfl
  · rw [heq, hold]
    rfl
  · rw [heq, hold]
    rfl

/-- **The children of a component after a change**: as before, or with one more, which is new. -/
theorem children_apply (c : Change) (legal : c.Legal ws) (id : ComponentId) :
    ((∀ name, ((c.apply ws).component id).child? name = (ws.component id).child? name) ∧
      ((c.apply ws).component id).childIds = (ws.component id).childIds) ∨
    ∃ name, (c.apply ws).component id = (ws.component id).addChild name ws.size ∧
      ws.size < (c.apply ws).size ∧ ((c.apply ws).component ws.size).parent? = some id ∧
      ((c.apply ws).component ws.size).name = name := by
  rcases c.component_apply legal id with heq | ⟨rfl, _, _, -, heq⟩ | ⟨rfl, _, _, _, _, -, heq⟩ |
    ⟨-, name, kind, i?, rfl, heq⟩ | ⟨-, e, -, heq⟩
  · exact .inl ⟨fun _ => by rw [heq], by rw [heq]⟩
  · rw [heq, ws.component_of_size_le (Nat.le_refl _)]
    exact .inl ⟨fun _ => rfl, rfl⟩
  · rw [heq, ws.component_of_size_le (Nat.le_refl _)]
    exact .inl ⟨fun _ => rfl, rfl⟩
  · refine .inr ⟨name, heq, by rw [size_below]; exact Nat.lt_succ_self _, ?_⟩
    rw [component_below legal.1, if_pos rfl]
    exact ⟨rfl, rfl⟩
  · rw [heq]
    exact .inl ⟨e.apply_child? _, e.apply_childIds _⟩

/-- **A change keeps all that there is.** -/
theorem extends_apply (c : Change) (legal : c.Legal ws) : ws.Extends (c.apply ws) := by
  have hkept : ∀ {id : ComponentId}, id < ws.size →
      ((c.apply ws).component id).name = (ws.component id).name ∧
      ((c.apply ws).component id).parent? = (ws.component id).parent? ∧
      (c.apply ws).isFile id = ws.isFile id := by
    intro id hid
    rw [isFile, isFile, kind, kind]
    rcases c.component_apply legal id with heq | ⟨hsize, -⟩ | ⟨hsize, -⟩ | ⟨-, _, _, _, -, heq⟩ |
      ⟨-, e, -, heq⟩
    · rw [heq]
      exact ⟨rfl, rfl, rfl⟩
    · exact absurd hsize (Nat.ne_of_lt hid)
    · exact absurd hsize (Nat.ne_of_lt hid)
    · rw [heq]
      exact ⟨rfl, rfl, rfl⟩
    · rw [heq]
      exact ⟨e.apply_name _, e.apply_parent? _, e.apply_isFile _⟩
  refine ⟨?_, ?_, fun hid => (hkept hid).1, fun hid => (hkept hid).2.1, fun hid => (hkept hid).2.2⟩
  · cases c with
    | root | below | edit => simp [apply]
    | _ => exact Nat.le_refl _
  · cases c with
    | plant | plantBelow | rename | stamp => simp [apply, Forest.setName, Forest.stamp]
    | _ => exact Nat.le_refl _

end Change

/-! ### The journal -/

variable {ws : Workspace}

theorem Event.Marked.apply {e : Event} (h : e.Marked ws) (c : Change) (legal : c.Legal ws) :
    e.Marked (c.apply ws) := by
  -- a component that is not there is no file, and no edit takes a mark away
  have hkept : ∀ (p : SourceFile → Bool) (file : ComponentId),
      (∀ (g : FileEdit) f, p f = true → p (g.apply f) = true) →
      (ws.component file).file?.any p = true → ((c.apply ws).component file).file?.any p = true := by
    intro p file hp hany
    have hnone : file ≠ ws.size := by
      rintro rfl
      rw [ws.component_of_size_le (Nat.le_refl _)] at hany
      cases hany
    rcases c.file?_apply legal file with heq | ⟨hid, -⟩ | ⟨-, g, -, heq⟩
    · rwa [heq]
    · exact absurd hid hnone
    · rw [heq]
      cases hf : (ws.component file).file? with
      | none =>
        rw [hf] at hany
        cases hany
      | some f =>
        rw [hf] at hany
        exact hp g f hany
  cases e with
  | opened file => exact hkept _ file (fun g f hf => (g.loaded_apply f).mpr (.inl hf)) h
  | begun file =>
    refine hkept _ file (fun g f hf => ?_) h
    rcases g.output?_apply f with heq | ⟨p, -, heq⟩
    · rwa [heq]
    · rw [heq]
      rfl

/-- **A change keeps the journal in order.** -/
theorem Workspace.Journaled.apply (h : ws.Journaled) (c : Change) (legal : c.Legal ws) :
    (c.apply ws).Journaled := by
  cases c with
  | record e =>
    constructor
    · intro other hother
      rcases List.mem_append.mp hother with hold | hnew
      · exact (h.marked other hold).apply (.record e) legal
      · rw [List.mem_singleton.mp hnew]
        exact legal.1.apply (.record e) legal
    · refine List.nodup_append.mpr ⟨h.nodup, by simp, fun a ha b hb => ?_⟩
      rw [List.mem_singleton.mp hb]
      exact fun hab => legal.2 (hab ▸ ha)
  | _ => exact ⟨fun other hother => (h.marked other hother).apply _ legal, h.nodup⟩

namespace Forest

theorem get_add (f : Forest) (i : Instruction) (id : InstructionId) :
    (f.add i).2.get id = if id = f.size then i else f.get id := getD_push f.nodes i id

theorem get_modify_eq (f : Forest) (id : InstructionId) (g : Instruction → Instruction)
    (other : InstructionId) : (f.modify id g).get other =
      if other = id ∧ id < f.size then g (f.get other) else f.get other := getD_modify f.nodes id g other

/-- The children after an instruction without children was added below another. -/
theorem children_addChild (f : Forest) {parent : InstructionId} (hp : parent < f.size) {i : Instruction}
    (hi : i.children = []) (id : InstructionId) :
    ((f.addChild parent i).2.get id).children =
      if id = parent then (f.get id).children ++ [f.size] else
        if id = f.size then [] else (f.get id).children := by
  simp only [addChild, get_modify_eq, get_add, size_add]
  simp only [add]
  grind

theorem children_of_size_le (f : Forest) {id : InstructionId} (h : f.size ≤ id) :
    (f.get id).children = [] := by
  unfold size at h
  simp [get, Array.getD_eq_getD_getElem?, h]
  rfl

namespace Sound

variable {f : Forest}

theorem of_children {g : Forest} (h : f.Sound) (hc : ∀ id, (g.get id).children = (f.get id).children)
    (hsize : f.size ≤ g.size) : g.Sound where
  later hmem := by
    rw [hc] at hmem
    exact ⟨(h.later hmem).1, Nat.lt_of_lt_of_le (h.later hmem).2 hsize⟩
  nodup id := by
    rw [hc]
    exact h.nodup id
  parent_unique ha hb := by
    rw [hc] at ha hb
    exact h.parent_unique ha hb

variable {i : Instruction}

theorem add (h : f.Sound) (hi : i.children = []) : (f.add i).2.Sound := by
  refine h.of_children (fun id => ?_) (by simp)
  rw [get_add]
  split
  · next hid => rw [hi, hid, f.children_of_size_le (Nat.le_refl _)]
  · rfl

theorem addChild (h : f.Sound) {parent : InstructionId} (hp : parent < f.size) (hi : i.children = []) :
    (f.addChild parent i).2.Sound := by
  have hc := f.children_addChild hp hi
  have hold : ∀ {id c : InstructionId}, c ∈ ((f.addChild parent i).2.get id).children →
      (id = parent ∧ c = f.size) ∨ c ∈ (f.get id).children := by
    intro id c hmem
    rw [hc] at hmem
    split at hmem
    · next hid =>
      rcases List.mem_append.mp hmem with hmem | hmem
      · exact .inr hmem
      · exact .inl ⟨hid, List.mem_singleton.mp hmem⟩
    · split at hmem
      · cases hmem
      · exact .inr hmem
  -- the new number is nobody's child yet
  have hfresh : ∀ id, f.size ∉ (f.get id).children := fun id hmem =>
    Nat.lt_irrefl _ (h.later hmem).2
  constructor
  · intro id c hmem
    rw [size_addChild]
    rcases hold hmem with ⟨rfl, rfl⟩ | hmem
    · exact ⟨hp, Nat.lt_succ_self _⟩
    · exact ⟨(h.later hmem).1, Nat.lt_succ_of_lt (h.later hmem).2⟩
  · intro id
    rw [hc]
    split
    · exact List.nodup_append.mpr ⟨h.nodup id, by simp, by
        intro a ha b hb
        rw [List.mem_singleton.mp hb]
        exact fun hab => hfresh id (hab ▸ ha)⟩
    · split
      · exact List.nodup_nil
      · exact h.nodup id
  · intro a b c ha hb
    rcases hold ha with ⟨rfl, rfl⟩ | ha'
    · rcases hold hb with ⟨rfl, -⟩ | hb'
      · rfl
      · exact absurd hb' (hfresh b)
    · rcases hold hb with ⟨-, rfl⟩ | hb'
      · exact absurd ha' (hfresh a)
      · exact h.parent_unique ha' hb'

theorem modify (h : f.Sound) (id : InstructionId) {g : Instruction → Instruction}
    (hg : ∀ i, (g i).children = i.children) : (f.modify id g).Sound := by
  refine h.of_children (fun other => ?_) (by simp)
  rw [get_modify_eq]
  split
  · exact hg _
  · rfl

end Sound

end Forest

/-! ### A child takes its place -/

section Replace

variable {α : Type} [BEq α] [LawfulBEq α] {l : List α} {a b : α}

theorem mem_replace_iff (hd : l.Nodup) (ha : a ∈ l) (c : α) :
    c ∈ l.replace a b ↔ c = b ∨ (c ∈ l ∧ c ≠ a) := by
  induction l with
  | nil => cases ha
  | cons x xs ih =>
    obtain ⟨hx, hd⟩ := List.nodup_cons.mp hd
    rw [List.replace_cons]
    by_cases hxa : x = a
    · subst hxa
      simp only [beq_self_eq_true, List.mem_cons]
      grind
    · have ha' : a ∈ xs := (List.mem_cons.mp ha).resolve_left (Ne.symm hxa)
      simp only [beq_false_of_ne (Ne.symm hxa), List.mem_cons, ih hd ha']
      grind

theorem nodup_replace (hd : l.Nodup) (hb : b ∉ l) : (l.replace a b).Nodup := by
  induction l with
  | nil => exact hd
  | cons x xs ih =>
    obtain ⟨hx, hd⟩ := List.nodup_cons.mp hd
    rw [List.mem_cons, not_or] at hb
    rw [List.replace_cons]
    split
    · exact List.nodup_cons.mpr ⟨hb.2, hd⟩
    · refine List.nodup_cons.mpr ⟨fun hmem => ?_, ih hd hb.2⟩
      by_cases ha : a ∈ xs
      · rcases (mem_replace_iff hd ha x).mp hmem with rfl | ⟨hmem, -⟩
        · exact hb.1 rfl
        · exact hx hmem
      · rw [List.replace_of_not_mem (by simpa using ha)] at hmem
        exact hx hmem

end Replace

namespace Workspace.Sound

variable {ws : Workspace}

theorem size_not_mem_childIds (h : ws.Sound) (id : ComponentId) :
    ws.size ∉ (ws.component id).childIds :=
  fun hmem => Nat.lt_irrefl _ (h.of_mem_childIds hmem).1

/-- What is listed after a child was added: the child, and all others but the one of its name. -/
theorem mem_childIds_addChild (h : ws.Sound) (id c : ComponentId) (name : String) :
    c ∈ ((ws.component id).addChild name ws.size).childIds ↔
      c = ws.size ∨ (c ∈ (ws.component id).childIds ∧ (ws.component c).name ≠ name) := by
  -- a listed child has the name exactly if it is the one that is replaced
  have hname : ∀ {c}, c ∈ (ws.component id).childIds →
      ((ws.component c).name = name ↔ (ws.component id).child? name = some c) := by
    intro c hc
    constructor
    · rintro rfl
      exact h.listed hc
    · exact fun hchild => (h.child hchild).2.2.1
  simp only [Component.addChild]
  cases hprev : (ws.component id).child? name with
  | none =>
    simp only [List.mem_append, List.mem_singleton]
    constructor
    · rintro (hc | rfl)
      · exact .inr ⟨hc, fun hn => by simpa [hprev] using (hname hc).mp hn⟩
      · exact .inl rfl
    · rintro (rfl | ⟨hc, -⟩)
      · exact .inr rfl
      · exact .inl hc
  | some previous =>
    have hmem := (h.child hprev).2.2.2
    rw [mem_replace_iff (h.nodup id) hmem]
    refine or_congr_right (and_congr_right fun hc => not_congr ?_)
    rw [hname hc, hprev, Option.some_inj, eq_comm]

theorem nodup_childIds_addChild (h : ws.Sound) (id : ComponentId) (name : String) :
    ((ws.component id).addChild name ws.size).childIds.Nodup := by
  have hfresh := h.size_not_mem_childIds id
  simp only [Component.addChild]
  split
  · exact nodup_replace (h.nodup id) hfresh
  · refine List.nodup_append.mpr ⟨h.nodup id, by simp, fun a ha b hb => ?_⟩
    rw [List.mem_singleton.mp hb]
    exact fun hab => hfresh (hab ▸ ha)

/-- **A change keeps soundness.** -/
theorem apply (h : ws.Sound) (c : Change) (legal : c.Legal ws) : (c.apply ws).Sound := by
  have hext := c.extends_apply legal
  constructor
  case parent_lt =>
    intro id p hp
    rcases c.component_apply legal id with heq | ⟨-, _, _, -, heq⟩ | ⟨rfl, _, _, _, _, rfl, heq⟩ |
      ⟨hid, -⟩ | ⟨hid, -⟩
    · exact h.parent_lt (heq ▸ hp)
    · rw [heq] at hp
      cases hp
    · rw [heq] at hp
      cases hp
      exact legal.1
    · exact h.parent_lt (hext.parent? hid ▸ hp)
    · exact h.parent_lt (hext.parent? hid ▸ hp)
  case child =>
    intro id x n hx
    -- a child that was there before keeps its place
    have hkept : (ws.component id).child? n = some x → x < (c.apply ws).size ∧
        ((c.apply ws).component x).parent? = some id ∧ ((c.apply ws).component x).name = n := by
      intro hchild
      obtain ⟨hlt, hpar, hn, -⟩ := h.child hchild
      rw [hext.parent? hlt, hext.name hlt]
      exact ⟨Nat.lt_of_lt_of_le hlt hext.size_le, hpar, hn⟩
    rcases c.children_apply legal id with ⟨hchild, hids⟩ | ⟨name, heq, hlt, hpar, hname⟩
    · rw [hchild] at hx
      obtain ⟨hlt, hpar, hn⟩ := hkept hx
      exact ⟨hlt, hpar, hn, hids ▸ (h.child hx).2.2.2⟩
    · rw [heq] at hx ⊢
      by_cases hn : n = name
      · subst hn
        rw [Component.child?_addChild_self] at hx
        cases hx
        exact ⟨hlt, hpar, hname, (h.mem_childIds_addChild ..).mpr (.inl rfl)⟩
      · rw [Component.child?_addChild_of_ne _ hn] at hx
        obtain ⟨hlt, hpar, hold⟩ := hkept hx
        refine ⟨hlt, hpar, hold, (h.mem_childIds_addChild ..).mpr (.inr ⟨(h.child hx).2.2.2, ?_⟩)⟩
        rw [(h.child hx).2.2.1]
        exact hn
  case listed =>
    intro id x hx
    rcases c.children_apply legal id with ⟨hchild, hids⟩ | ⟨name, heq, -, -, hname⟩
    · rw [hids] at hx
      rw [hchild, hext.name (h.of_mem_childIds hx).1]
      exact h.listed hx
    · rw [heq] at hx ⊢
      rcases (h.mem_childIds_addChild ..).mp hx with rfl | ⟨hx, hn⟩
      · rw [hname, Component.child?_addChild_self]
      · rw [hext.name (h.of_mem_childIds hx).1, Component.child?_addChild_of_ne _ hn]
        exact h.listed hx
  case nodup =>
    intro id
    rcases c.children_apply legal id with ⟨-, hids⟩ | ⟨name, heq, -⟩
    · rw [hids]
      exact h.nodup id
    · rw [heq]
      exact h.nodup_childIds_addChild id name
  case instruction_lt =>
    intro id i hi
    rcases c.instruction?_apply legal id with heq | ⟨j, heq, ⟨-, _, _, _, rfl⟩ | rfl⟩
    · exact Nat.lt_of_lt_of_le (h.instruction_lt (heq ▸ hi)) hext.forest_le
    · cases hi.symm.trans heq
      exact legal.2 i rfl
    · cases hi.symm.trans heq
      exact legal
  case project_lt =>
    have hold : ∀ p ∈ ws.projects, p.component < (c.apply ws).size := fun p hp =>
      Nat.lt_of_lt_of_le (h.project_lt p hp) hext.size_le
    intro p hp
    cases c with
    | project q =>
      rcases Array.mem_push.mp hp with hp | rfl
      · exact hold p hp
      · exact legal
    | _ => exact hold p hp
  case forest =>
    cases c with
    | plant => exact h.forest.add legal
    | plantBelow => exact h.forest.addChild legal.1 legal.2
    | rename | stamp => exact h.forest.modify _ fun _ => rfl
    | _ => exact h.forest
  case journal =>
    exact h.journal.apply c legal

end Workspace.Sound

/-! ## Rows of changes -/

/-- Some of the changes: those meant in a workspace. -/
abbrev Change.Class := Workspace → Change → Prop

/-- One change of a class. -/
inductive Step (P : Change.Class) (ws : Workspace) : Workspace → Prop
  | make (c : Change) (legal : c.Legal ws) (mem : P ws c) : Step P ws (c.apply ws)

/-- Any number of changes of a class, one after the other. -/
def Reach (P : Change.Class) : Workspace → Workspace → Prop := Relation.ReflTransGen (Step P)

namespace Reach

variable {P Q : Change.Class} {ws ws' ws'' : Workspace}

theorem refl (P : Change.Class) (ws : Workspace) : Reach P ws ws := Relation.ReflTransGen.refl

theorem single (c : Change) (legal : c.Legal ws) (mem : P ws c) : Reach P ws (c.apply ws) :=
  Relation.ReflTransGen.single (Step.make c legal mem)

theorem trans (h : Reach P ws ws') (h' : Reach P ws' ws'') : Reach P ws ws'' :=
  Relation.ReflTransGen.trans h h'

theorem mono (hPQ : ∀ ws c, P ws c → Q ws c) (h : Reach P ws ws') : Reach Q ws ws' := by
  induction h with
  | refl => exact refl Q ws
  | tail _ step ih =>
    obtain ⟨c, legal, mem⟩ := step
    exact ih.trans (single c legal (hPQ _ c mem))

/-- **What every change of a class keeps, rows of them keep.** Soundness is kept by all changes
and can be used at each step. -/
theorem invariant {I : Workspace → Prop} (hs : ws.Sound) (hI : I ws)
    (hstep : ∀ ws c, ws.Sound → c.Legal ws → P ws c → I ws → I (c.apply ws))
    (h : Reach P ws ws') : I ws' := by
  suffices hboth : ws'.Sound ∧ I ws' from hboth.2
  induction h with
  | refl => exact ⟨hs, hI⟩
  | tail _ step ih =>
    obtain ⟨c, legal, mem⟩ := step
    exact ⟨ih.1.apply c legal, hstep _ c ih.1 legal mem ih.2⟩

theorem sound (h : Reach P ws ws') (hs : ws.Sound) : ws'.Sound :=
  h.invariant hs hs fun _ c hs legal _ _ => hs.apply c legal

theorem extension (h : Reach P ws ws') : ws.Extends ws' := by
  induction h with
  | refl => exact .refl _
  | tail _ step ih =>
    obtain ⟨c, legal, -⟩ := step
    exact ih.trans (c.extends_apply legal)

/-- **A component stays of its sort**, whatever is changed. -/
theorem describe_eq (h : Reach P ws ws') {id : ComponentId} (hid : id < ws.size) :
    (ws'.component id).kind.describe = (ws.component id).kind.describe := by
  induction h with
  | refl => rfl
  | tail hreach step ih =>
    obtain ⟨c, legal, -⟩ := step
    exact (c.describe_apply legal (Nat.lt_of_lt_of_le hid (extension hreach).size_le)).trans ih

theorem journal (h : Reach P ws ws') : ws.journal <+: ws'.journal := by
  induction h with
  | refl => exact List.prefix_rfl
  | tail _ step ih =>
    obtain ⟨c⟩ := step
    refine ih.trans ?_
    cases c with
    | record e => exact List.prefix_append _ [e]
    | _ => exact List.prefix_rfl

end Reach

end LightHeaders
