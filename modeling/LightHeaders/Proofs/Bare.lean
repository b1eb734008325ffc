import LightHeaders.Proofs.Pages

set_option autoImplicit false

/-! # What writing does not look at

The **bare** workspace is a workspace without what the writing of a body changes: the pages, the
libraries that are noted, the lines of the instructions, the disk and the output paths in use. What
the text of a component is made of is the same in both (`Workspace.lifted_of_bare`,
`Workspace.margin_of_bare` and so on), so it is the same before and after any writing of bodies.
-/

namespace LightHeaders

open Workspace

/-- The file without its page and its libraries. -/
def SourceFile.bare (f : SourceFile) : SourceFile :=
  { f with libraries := [], included := [], nextLine := 1 }

/-- The component without its page. -/
def Component.bare (c : Component) : Component :=
  { c with kind := c.kind.mapFile SourceFile.bare, written := false, buffer := {} }

/-- The instruction without its line. -/
def Instruction.bare (i : Instruction) : Instruction := { i with line? := none }

/-- The instructions without their lines. -/
def Forest.bare (f : Forest) : Forest := { nodes := f.nodes.map Instruction.bare }

/-- The workspace without what writing changes. -/
def Workspace.bare (ws : Workspace) : Workspace :=
  { ws with
    disk := .empty
    components := ws.components.map Component.bare
    forest := ws.forest.bare
    taken := [] }

theorem Forest.get_bare (f : Forest) (i : InstructionId) : f.bare.get i = (f.get i).bare := by
  simp only [bare, get, Array.getD_eq_getD_getElem?, Array.getElem?_map]
  cases f.nodes[i]? <;> rfl

theorem Component.file?_bare (c : Component) : c.bare.file? = c.file?.map SourceFile.bare := by
  rw [file?, bare, Kind.file?_mapFile, file?]

theorem Component.still_bare (c : Component) : c.bare.still = c.still := by
  rw [bare, still, still]
  cases c.kind <;> rfl

namespace Workspace

theorem component_bare (ws : Workspace) (id : ComponentId) : ws.bare.component id =
    (ws.component id).bare := by
  simp only [bare, component, Array.getD_eq_getD_getElem?, Array.getElem?_map]
  cases ws.components[id]? <;> rfl

theorem size_bare (ws : Workspace) : ws.bare.size = ws.size := by
  simp [bare, size]

section Bare

variable {ws ws' : Workspace} (hb : ws'.bare = ws.bare) (id : ComponentId)

include hb

/-! ## Instructions -/

theorem instruction_of_bare (i : InstructionId) : (ws'.forest.get i).bare = (ws.forest.get i).bare := by
  rw [← Forest.get_bare, ← Forest.get_bare]
  exact congrArg (fun ws => ws.forest.get i) hb

theorem alike_of_bare : ws.Alike ws' where
  size_eq := by rw [← size_bare, hb, size_bare]
  component id := by
    rw [← Component.still_bare, ← component_bare, hb, component_bare, Component.still_bare]
  instruction i := (congrArg Instruction.still (instruction_of_bare hb i) :)

theorem childName?_of_bare (i : InstructionId) (pos : Nat) :
    ws'.forest.childName? i pos = ws.forest.childName? i pos := by
  rw [Forest.childName?, Forest.child?, (alike_of_bare hb).childId?_eq, Forest.childName?, Forest.child?,
    Option.map_map, Option.map_map]
  exact congrArg (Option.map · _) (funext fun i => (congrArg Instruction.name (instruction_of_bare hb i) :))

/-! ## Components -/

theorem size_of_bare : ws'.size = ws.size := (alike_of_bare hb).size_eq

theorem omitUnreferenced_of_bare : ws'.omitUnreferenced = ws.omitUnreferenced :=
  (congrArg Workspace.omitUnreferenced hb :)

theorem view_of_bare {γ : Type} (view : Component → γ) (hview : ∀ c, view c.bare = view c)
    (id : ComponentId) :
    view (ws'.component id) = view (ws.component id) := by
  rw [← hview, ← component_bare, hb, component_bare, hview]

theorem name_of_bare : (ws'.component id).name = (ws.component id).name :=
  (alike_of_bare hb).name_eq id

theorem parent?_of_bare : (ws'.component id).parent? = (ws.component id).parent? :=
  (alike_of_bare hb).parent?_eq id

theorem childIds_of_bare : (ws'.component id).childIds = (ws.component id).childIds :=
  (alike_of_bare hb).childIds_eq id

theorem instruction?_of_bare :
    (ws'.component id).instruction? = (ws.component id).instruction? :=
  (alike_of_bare hb).instruction?_eq id

theorem referenced_of_bare : (ws'.component id).referenced = (ws.component id).referenced :=
  view_of_bare hb Component.referenced (fun _ => rfl) id

theorem forward?_of_bare : (ws'.component id).forward? = (ws.component id).forward? :=
  view_of_bare hb Component.forward? (fun _ => rfl) id

theorem specifiers_of_bare :
    Build.specifiers (ws'.component id) = Build.specifiers (ws.component id) :=
  view_of_bare hb Build.specifiers (fun _ => rfl) id

theorem isFile_of_bare : ws'.isFile id = ws.isFile id := (alike_of_bare hb).isFile_eq id

theorem of_kind_of_bare {γ : Type} (view : Kind → γ)
    (hview : ∀ k : Kind, view (k.mapFile SourceFile.bare) = view k)
    (id : ComponentId) : view (ws'.kind id) = view (ws.kind id) :=
  view_of_bare hb (fun c => view c.kind) (fun c => hview c.kind) id

theorem kind_cases_of_bare :
    ws'.kind id = ws.kind id ∨ ∃ f f', ws.kind id = .file f ∧ ws'.kind id = .file f' := by
  have hkind := of_kind_of_bare hb (fun k => k.mapFile SourceFile.bare) (fun k => by cases k <;> rfl) id
  cases hk : ws.kind id with
  | file f =>
    cases hk' : ws'.kind id with
    | file f' => exact .inr ⟨f, f', rfl, rfl⟩
    | _ =>
      rw [hk, hk'] at hkind
      cases hkind
  | _ =>
    cases hk' : ws'.kind id with
    | file =>
      rw [hk, hk'] at hkind
      cases hkind
    | _ =>
      rw [hk, hk'] at hkind
      exact .inl hkind

theorem kind_eq_of_bare {id : ComponentId} (hno : ws.isFile id = false) : ws'.kind id = ws.kind id := by
  refine (kind_cases_of_bare hb id).resolve_right ?_
  rintro ⟨f, -, hk, -⟩
  rw [isFile, hk] at hno
  cases hno

theorem isContainer_of_bare : (ws'.kind id).isContainer = (ws.kind id).isContainer :=
  of_kind_of_bare hb Kind.isContainer (fun k => by cases k <;> rfl) id

theorem memberType?_of_bare : (ws'.kind id).memberType? = (ws.kind id).memberType? :=
  (alike_of_bare hb).memberType?_eq id

theorem of_file?_of_bare {γ : Type} (view : SourceFile → Option γ)
    (hview : ∀ f : SourceFile, view f.bare = view f)
    (id : ComponentId) : (ws'.component id).file?.bind view = (ws.component id).file?.bind view := by
  refine view_of_bare hb (fun c => c.file?.bind view) (fun c => ?_) id
  rw [c.file?_bare]
  cases c.file? with
  | none => rfl
  | some f => exact hview f

theorem output?_of_bare : ws'.output? id = ws.output? id :=
  of_file?_of_bare hb SourceFile.output? (fun _ => rfl) id

theorem Loaded.of_bare (h : ws.Loaded) : ws'.Loaded := (alike_of_bare hb).loaded h

/-! ## Around a component -/

theorem enclosing_of_bare : ws'.enclosing id = ws.enclosing id :=
  (alike_of_bare hb).enclosing_eq id

theorem fileOf?_of_bare : ws'.fileOf? id = ws.fileOf? id := (alike_of_bare hb).fileOf?_eq id

theorem spellingOf_of_bare : ws'.spellingOf id = ws.spellingOf id := by
  have howner : ws'.owner? id = ws.owner? id := by
    rw [owner?, outermost, enclosing_of_bare hb, owner?, outermost]
    exact of_file?_of_bare hb SourceFile.project? (fun _ => rfl) _
  have hproject : ∀ p, ws'.project p = ws.project p := fun p => (congrArg (project · p) hb :)
  rw [spellingOf, howner, spellingOf, funext hproject]

theorem qualifiedName_of_bare : ws'.qualifiedName id = ws.qualifiedName id := by
  have hq : ws'.isQualifier = ws.isQualifier := by
    funext a
    rw [isQualifier, isContainer_of_bare hb, isFile_of_bare hb, isQualifier]
  simp only [qualifiedName, enclosing_of_bare hb, hq, name_of_bare hb]

theorem languageAt_of_bare : ws'.languageAt id = ws.languageAt id :=
  (alike_of_bare hb).languageAt_eq id

theorem depthInFile_of_bare : ws'.depthInFile id = ws.depthInFile id := by
  have hlevels : ∀ chain, ws'.levels chain = ws.levels chain := fun chain => by
    induction chain with
    | nil => rfl
    | cons id rest ih =>
      cases rest with
      | nil => rfl
      | cons parent rest => rw [levels, forward?_of_bare hb, isFile_of_bare hb, ih, levels]
  rw [depthInFile, enclosing_of_bare hb, hlevels, depthInFile]

theorem margin_of_bare : ws'.margin id = ws.margin id := by
  rw [margin, depthInFile_of_bare hb, margin]

theorem spelling_of_bare (t : Target) : ws'.spelling t = ws.spelling t := by
  cases t with
  | native f => rfl
  | component id => exact qualifiedName_of_bare hb id

/-! ## Below a component -/

theorem isLive_of_bare : ws'.isLive id = ws.isLive id := by
  have hlive : ∀ bound id, ws'.liveWithin bound id = ws.liveWithin bound id := fun bound => by
    induction bound with
    | zero => exact fun _ => rfl
    | succ bound ih =>
      intro id
      have hc : (ws'.component id).kind.isContainer = (ws.component id).kind.isContainer :=
        isContainer_of_bare hb id
      simp only [liveWithin, referenced_of_bare hb, hc, childIds_of_bare hb, funext ih]
  rw [isLive, size_of_bare hb, hlive, isLive]

theorem isSetApart_of_bare : ws'.isSetApart id = ws.isSetApart id := by
  rw [isSetApart, isSetApart]
  rcases kind_cases_of_bare hb id with heq | ⟨f, f', hk, hk'⟩
  · rw [heq]
  · rw [hk, hk']

theorem writtenChildren_of_bare (id : ComponentId) (prune : Bool) :
    ws'.writtenChildren id prune = ws.writtenChildren id prune := by
  simp only [writtenChildren, childIds_of_bare hb, isSetApart_of_bare hb, omitUnreferenced_of_bare hb,
    isLive_of_bare hb]

theorem lifted_of_bare : ws'.lifted id = ws.lifted id := by
  have hspace : ∀ child, (ws'.kind child = .space) = (ws.kind child = .space) :=
    of_kind_of_bare hb (· = .space) fun k => by cases k <;> simp [Kind.mapFile]
  have hlifted : ∀ depth id prune, ws'.liftedWithin depth id prune = ws.liftedWithin depth id prune := by
    intro depth
    induction depth with
    | zero => exact fun _ _ => rfl
    | succ depth ih =>
      intro id prune
      simp only [liftedWithin, writtenChildren_of_bare hb, ih, forward?_of_bare hb, hspace]
  rw [lifted, size_of_bare hb, hlifted, lifted]

end Bare

end Workspace

/-! ## The changes that writing bodies makes -/

/-- The changes that spelling a name makes: the library of a native function is noted. -/
inductive Notes (ws : Workspace) : Change → Prop
  | library (file : ComponentId) (name : String) : Notes ws (.edit file (.file (.library name)))

/-- The changes that writing bodies makes: text for components in `S`, lines of the file `f`, and for
components in `T` that they were written and the lines of their instructions. -/
inductive Prints (S T : ComponentId → Prop) (f : ComponentId) (ws : Workspace) : Change → Prop
  | note {c : Change} (mem : Notes ws c) : Prints S T f ws c
  | text {id : ComponentId} (s : String) (mem : S id) : Prints S T f ws (.edit id (.text s))
  | written {id : ComponentId} (mem : T id) : Prints S T f ws (.edit id .written)
  | lineEnd : Prints S T f ws (.edit f (.file .lineEnd))
  | stamp {id : ComponentId} {i : InstructionId} (line : Nat) (mem : T id)
      (source : (ws.component id).instruction? = some i) : Prints S T f ws (.stamp i line)

theorem Prints.mono {S T S' T' : ComponentId → Prop} {f : ComponentId} (hS : ∀ x, S x → S' x)
    (hT : ∀ x, T x → T' x) (ws : Workspace) (c : Change) (h : Prints S T f ws c) :
    Prints S' T' f ws c := by
  cases h with
  | note mem => exact .note mem
  | text s mem => exact .text s (hS _ mem)
  | written mem => exact .written (hT _ mem)
  | lineEnd => exact .lineEnd
  | stamp line mem source => exact .stamp line (hT _ mem) source

namespace Workspace

/-- The text of a component. -/
def text (ws : Workspace) (id : ComponentId) : String := (ws.component id).buffer.text

/-- The number of the next line of a file. -/
def nextLine (ws : Workspace) (file : ComponentId) : Nat :=
  ((ws.component file).file?.map SourceFile.nextLine).getD 0

/-- The paths that the text of a file includes so far. -/
def included (ws : Workspace) (file : ComponentId) : List String :=
  ((ws.component file).file?.map SourceFile.included).getD []

/-- The line of the text of an instruction. -/
def line? (ws : Workspace) (i : InstructionId) : Option Nat := (ws.forest.get i).line?

theorem bare_modify (ws : Workspace) (id : ComponentId) {g : Component → Component}
    (h : ∀ c, (g c).bare = c.bare) : (ws.modify id g).bare = ws.bare := by
  have hc : (ws.components.modify id g).map Component.bare = ws.components.map Component.bare := by
    refine Array.ext_getElem? fun x => ?_
    rw [Array.getElem?_map, Array.getElem?_modify, Array.getElem?_map]
    split
    · cases ws.components[x]? with
      | none => rfl
      | some c => simp [h]
    · rfl
  rw [bare, bare, modify]
  simp only [hc]

end Workspace

theorem Forest.bare_stamp (f : Forest) (i : InstructionId) (line : Nat) :
    (f.stamp i line).bare = f.bare := by
  rw [bare, bare, stamp, modify]
  congr 1
  refine Array.ext_getElem? fun x => ?_
  rw [Array.getElem?_map, Array.getElem?_modify, Array.getElem?_map]
  split
  · cases f.nodes[x]? <;> rfl
  · rfl

section Prints

variable {S T : ComponentId → Prop} {f : ComponentId} {ws ws' : Workspace} {c : Change}

theorem Notes.bare_apply (h : Notes ws c) : (c.apply ws).bare = ws.bare := by
  cases h with
  | library file name =>
    refine ws.bare_modify file fun c => ?_
    simp only [Edit.apply, Component.bare]
    cases c.kind with
    | file f =>
      simp only [Kind.mapFile, FileEdit.apply]
      split <;> rfl
    | _ => rfl

theorem Prints.bare_apply (h : Prints S T f ws c) : (c.apply ws).bare = ws.bare := by
  cases h with
  | note mem => exact mem.bare_apply
  | text | written => exact ws.bare_modify _ fun _ => rfl
  | lineEnd =>
    refine ws.bare_modify _ fun c => ?_
    simp only [Edit.apply, Component.bare]
    cases c.kind <;> rfl
  | stamp line mem source => simp only [Change.apply, bare, Forest.bare_stamp]

/-- **Writing bodies changes nothing that it looks at.** -/
theorem Reach.bare_eq (h : Reach (Prints S T f) ws ws') (hs : ws.Sound) : ws'.bare = ws.bare :=
  h.invariant (I := fun ws' => ws'.bare = ws.bare) hs rfl fun _ _ _ _ hc heq =>
    hc.bare_apply.trans heq

theorem Reach.bare_of_notes (h : Reach Notes ws ws') (hs : ws.Sound) : ws'.bare = ws.bare :=
  h.invariant (I := fun ws' => ws'.bare = ws.bare) hs rfl fun _ _ _ _ hc heq =>
    hc.bare_apply.trans heq

theorem Reach.of_notes (h : Reach Notes ws ws') : Reach (Prints S T f) ws ws' :=
  h.mono fun _ _ mem => .note mem

/-- What writing lines and noting libraries does not change of a component stays, if its text stays or it
is not written, and it is not marked or that does not matter. -/
theorem Reach.view_eq {γ : Type} (view : Component → γ) {id : ComponentId}
    (hfile : ∀ g c, view ((Edit.file g).apply c) = view c)
    (htext : S id → ∀ s c, view ((Edit.text s).apply c) = view c)
    (hwritten : T id → ∀ c, view (Edit.written.apply c) = view c) (h : Reach (Prints S T f) ws ws')
    (hs : ws.Sound) : view (ws'.component id) = view (ws.component id) := by
  refine h.invariant (I := fun ws' => view (ws'.component id) = view (ws.component id)) hs rfl
    fun next c _ _ hc heq => Eq.trans ?_ heq
  have hedit : ∀ {other : ComponentId} {e : Edit}, (other = id → ∀ c, view (e.apply c) = view c) →
      view (((Change.edit other e).apply next).component id) = view (next.component id) := by
    intro other e hkept
    rw [Change.apply, component_modify_eq]
    split
    · next hx => exact hkept hx.1.symm _
    · rfl
  cases hc with
  | note mem =>
    cases mem with
    | library file name => exact hedit fun _ => hfile _
  | text s mem => exact hedit fun heq => htext (heq ▸ mem) s
  | written mem => exact hedit fun heq => hwritten (heq ▸ mem)
  | lineEnd => exact hedit fun _ => hfile _
  | stamp line mem source => rfl

theorem Reach.text_eq (h : Reach (Prints S T f) ws ws') (hs : ws.Sound) {id : ComponentId}
    (hid : ¬S id) : ws'.text id = ws.text id :=
  h.view_eq (fun c => c.buffer.text) (fun _ _ => rfl) (fun hS => absurd hS hid) (fun _ _ => rfl) hs

/-- The line of an instruction stays if it is of no component whose line is noted. -/
theorem Reach.line?_eq (h : Reach (Prints S T f) ws ws') (hs : ws.Sound) {i : InstructionId}
    (hi : ∀ id, T id → (ws.component id).instruction? ≠ some i) : ws'.line? i = ws.line? i := by
  refine (h.invariant (I := fun ws' => ws'.bare = ws.bare ∧ ws'.line? i = ws.line? i) hs
    ⟨rfl, rfl⟩ ?_).2
  rintro next c - - hc ⟨hbare, heq⟩
  refine ⟨hc.bare_apply.trans hbare, Eq.trans ?_ heq⟩
  cases hc with
  | note mem => cases mem; rfl
  | text | written | lineEnd => rfl
  | @stamp id j line mem source =>
    rw [line?, Change.apply, line?, Forest.stamp, Forest.get_modify_eq]
    split
    · next hj =>
      refine absurd ?_ (hi id mem)
      rw [← instruction?_of_bare hbare, source, hj.1]
    · rfl

theorem Workspace.file?_edit {β : Type} (view : SourceFile → β) (g : FileEdit)
    (hg : ∀ f, view (g.apply f) = view f) (ws : Workspace) (file other : ComponentId) :
    (((Change.edit file (.file g)).apply ws).component other).file?.map view =
      (ws.component other).file?.map view := by
  rw [Change.apply, component_modify_eq]
  split
  · rw [Component.file?, Edit.apply, Kind.file?_mapFile, Option.map_map, Component.file?]
    congr 1
    funext f
    exact hg f
  · rfl

theorem FileEdit.library_keeps {β : Type} (view : SourceFile → β)
    (hview : ∀ f libraries, view { f with libraries } = view f) (name : String) (f : SourceFile) :
    view ((FileEdit.library name).apply f) = view f := by
  rw [apply]
  split
  · rfl
  · exact hview f _

theorem Reach.nextLine_eq (h : Reach Notes ws ws') (hs : ws.Sound) (file : ComponentId) :
    ws'.nextLine file = ws.nextLine file := by
  refine h.invariant (I := fun ws' => ws'.nextLine file = ws.nextLine file) hs rfl
    fun next c _ _ hc heq => Eq.trans ?_ heq
  cases hc with
  | library other name =>
    rw [nextLine, next.file?_edit _ _ (FileEdit.library_keeps _ (fun _ _ => rfl) name)]
    rfl

theorem Reach.included_eq (h : Reach (Prints S T f) ws ws') (hs : ws.Sound) (file : ComponentId) :
    ws'.included file = ws.included file := by
  refine h.invariant (I := fun ws' => ws'.included file = ws.included file) hs rfl
    fun next c _ _ hc heq => Eq.trans ?_ heq
  have hpage : ∀ {other : ComponentId} {e : Edit}, (∀ c, (e.apply c).file? = c.file?) →
      ((Change.edit other e).apply next).included file = next.included file := by
    intro other e he
    exact next.modify_keeps other (fun c => (c.file?.map SourceFile.included).getD [])
      (fun c => by rw [he]) file
  cases hc with
  | note mem =>
    cases mem with
    | library other name =>
      rw [included,
        next.file?_edit _ _ (FileEdit.library_keeps _ (fun _ _ => rfl) name)]
      rfl
  | text | written => exact hpage fun _ => rfl
  | lineEnd =>
    rw [included, next.file?_edit _ _ fun _ => rfl]
    rfl
  | stamp line mem source => rfl

end Prints

end LightHeaders
