import LightHeaders.Proofs.Ancestors
import LightHeaders.Proofs.Literals
import LightHeaders.Proofs.Runs

set_option autoImplicit false

/-! # Names in a loaded workspace

With all files loaded, resolving a name loads nothing. What it leads to is a plain function of the
workspace (`targetAt?`), and resolving does just what that function says: at most the library of a
native function is noted (`Build.targetNamed_of_loaded`, `Build.targetNamed_eq_of_loaded`).

Two workspaces are **alike** if they differ only in what settling and writing change: marks, targets,
dependencies and libraries, pages and lines, and the digits and quotes of literals
(`Workspace.Alike`). Names lead to the same things in both, stand in the same files and languages,
and are names in both.
-/

namespace LightHeaders

open Text Workspace Component

/-! ## Loaded workspaces -/

/-- All files are loaded. -/
def Workspace.Loaded (ws : Workspace) : Prop :=
  ∀ id f, (ws.component id).file? = some f → f.loaded = true

theorem Workspace.loaded_iff (ws : Workspace) :
    ws.Loaded ↔ ∀ id < ws.size, (ws.component id).file?.all SourceFile.loaded = true := by
  constructor
  · intro h id _
    rw [Option.all_eq_true]
    exact h id
  · intro h id f hf
    have hlt := lt_size_of_isFile (isFile_of_file? hf)
    exact Option.all_eq_true _ _ |>.mp (h id hlt) f hf

instance : DecidablePred Workspace.Loaded := fun ws => decidable_of_iff _ ws.loaded_iff.symm

variable {ws : Workspace}

theorem Build.load_of_loaded (h : ws.Loaded) (id : ComponentId) : load id ws = .ok () ws := by
  have hwith : ∀ other, loadWith other id ws = .ok () ws := fun other => by
    rw [loadWith, bind_component]
    cases hf : (ws.component id).file? with
    | none => rfl
    | some file =>
      show (if file.loaded then (pure () : Build Unit) else _) ws = _
      rw [if_pos (h id file hf)]
      rfl
  show loadWithin ws.unloaded id ws = _
  cases ws.unloaded with
  | zero | succ => exact hwith _

/-! ## What a name leads to -/

/-- The name in an action of what is called or assigned. -/
def Action.name? : Action → Option String
  | .call callee => some callee
  | .assign target => some target
  | .giveBack => none

namespace Workspace

variable (ws : Workspace)

/-- What is below a component by a row of names. -/
def childAt? : ComponentId → List String → Option ComponentId
  | id, [] => some id
  | id, name :: rest =>
    match (ws.component id).child? name with
    | some child => childAt? child rest
    | none => none

/-- What a dotted name leads to. -/
def targetAt? (start : ComponentId) (name : String) : Option Target :=
  match Build.cFunctionOf? (pieces '.' name) with
  | some function => some (.native function)
  | none =>
    match pieces '.' name with
    | [] => none
    | first :: rest =>
      ((ws.nearest? start first).bind fun found => ws.childAt? found rest).map .component

/-- What an operation does. -/
def action? (id : ComponentId) : Option Action :=
  match ws.kind id with
  | .operation o => some o.action
  | _ => none

/-- What the name in an operation leads to. -/
def actionTarget? (id : ComponentId) : Option Target :=
  ((ws.action? id).bind Action.name?).bind (ws.targetAt? id)

/-- The workspace after a name in `scope` has led to a target: the library of a native function is
noted in the file around. -/
def noting (scope : ComponentId) : Target → Workspace
  | .component _ => ws
  | .native function =>
    match ws.fileOf? scope with
    | some file => (Change.edit file (.file (.library function.library))).apply ws
    | none => ws

end Workspace

namespace Build

variable {ws : Workspace}

theorem descend_of_loaded (hl : ws.Loaded) (segments : List String) (found : ComponentId)
    (read : List String) :
    ∃ r, descend load found read segments ws = .ok r ws ∧
      ∀ t, r = .found t ↔ (ws.childAt? found segments).map .component = some t := by
  induction segments generalizing found read with
  | nil => exact ⟨.found (.component found), rfl, fun t => by simp [childAt?]⟩
  | cons segment rest ih =>
    -- a file on the way is loaded already
    have hskip : descend load found read (segment :: rest) ws =
        (match (ws.component found).child? segment with
          | some child => descend load child (read ++ [segment]) rest
          | none => return .missing (glue "." (read ++ [segment]))) ws := by
      show (if ws.isFile found then load found >>= fun _ => _ else _) ws = _
      split
      · rw [bind_of_ok (load_of_loaded hl found)]
        rfl
      · rfl
    rw [hskip, childAt?]
    cases (ws.component found).child? segment with
    | none => exact ⟨_, rfl, fun t => by simp⟩
    | some child => exact ih child (read ++ [segment])

variable {P : Change.Class} {start : ComponentId} {name : String} {t : Target}

theorem lookUp_of_loaded (hl : ws.Loaded) (start : ComponentId)
    (hname : cFunctionOf? (pieces '.' name) = none) :
    ∃ r, lookUpWith load start name ws = .ok r ws ∧
      ∀ t, r = .found t ↔ ws.targetAt? start name = some t := by
  simp only [lookUpWith, targetAt?, hname]
  cases pieces '.' name with
  | nil => exact ⟨_, rfl, fun t => by simp⟩
  | cons first rest =>
    rw [lookUpSegments, bind_get]
    dsimp only
    cases ws.nearest? start first with
    | none => exact ⟨_, rfl, fun t => by simp⟩
    | some found => exact descend_of_loaded hl rest found [first]

theorem lookUp_native {function : CFunction} (hname : cFunctionOf? (pieces '.' name) = some function) :
    lookUpWith load start name ws =
      .ok (.found (.native function)) (ws.noting start (.native function)) := by
  simp only [lookUpWith, hname, noting]
  show (match ws.fileOf? start with
    | some file => do
      useLibrary file function.library
      return Resolution.found (.native function)
    | none => (return Resolution.found (.native function) : Build Resolution)) ws = _
  cases ws.fileOf? start with
  | none | some => rfl

/-- **A name leads where `targetAt?` says.** -/
theorem targetNamed_eq_of_loaded (hl : ws.Loaded) (h : ws.targetAt? start name = some t) :
    targetNamed start name ws = .ok t (ws.noting start t) := by
  show (lookUpWith load start name >>= _) ws = _
  cases hname : cFunctionOf? (pieces '.' name) with
  | some function =>
    rw [targetAt?, hname] at h
    cases h
    rw [bind_of_ok (lookUp_native hname)]
    rfl
  | none =>
    obtain ⟨r, hr, hfound⟩ := lookUp_of_loaded hl start hname
    rw [bind_of_ok hr, (hfound t).mpr h]
    cases t with
    | component id => rfl
    | native function =>
      rw [targetAt?, hname] at h
      dsimp only at h
      split at h
      · cases h
      · obtain ⟨_, -, hcomponent⟩ := Option.map_eq_some_iff.mp h
        cases hcomponent

theorem targetNamed_of_targetAt?_eq_none (hl : ws.Loaded)
    (h : ws.targetAt? start name = none) : ∃ e, targetNamed start name ws = .error e ws := by
  show ∃ e, (lookUpWith load start name >>= _) ws = .error e ws
  cases hname : cFunctionOf? (pieces '.' name) with
  | some function =>
    rw [targetAt?, hname] at h
    cases h
  | none =>
    obtain ⟨r, hr, hfound⟩ := lookUp_of_loaded hl start hname
    rw [bind_of_ok hr]
    cases r with
    | missing path => exact ⟨_, rfl⟩
    | found t =>
      rw [(hfound t).mp rfl] at h
      cases h

variable {ws' : Workspace}

theorem targetNamed_of_loaded (hl : ws.Loaded) (h : targetNamed start name ws = .ok t ws') :
    ws.targetAt? start name = some t ∧ ws' = ws.noting start t := by
  cases ht : ws.targetAt? start name with
  | none =>
    obtain ⟨e, he⟩ := targetNamed_of_targetAt?_eq_none hl ht
    rw [he] at h
    cases h
  | some t' =>
    rw [targetNamed_eq_of_loaded hl ht] at h
    cases h
    exact ⟨rfl, rfl⟩

theorem componentNamed_of_loaded (hl : ws.Loaded) {id : ComponentId}
    (h : componentNamed start name ws = .ok id ws') :
    ws.targetAt? start name = some (.component id) ∧ ws' = ws := by
  cases ht : ws.targetAt? start name with
  | none =>
    obtain ⟨e, he⟩ := targetNamed_of_targetAt?_eq_none hl ht
    have hnone : componentNamed start name ws = .error e ws := bind_of_error he
    rw [hnone] at h
    cases h
  | some t =>
    have hsome : componentNamed start name ws = _ := bind_of_ok (targetNamed_eq_of_loaded hl ht)
    rw [hsome] at h
    cases t with
    | component found =>
      cases h
      exact ⟨rfl, rfl⟩
    | native function => cases h

/-- A name leads to what `targetAt?` says, and at most a library is noted. -/
theorem runs_targetNamed_of_loaded (hl : ws.Loaded) (start : ComponentId)
    (hnote : ∀ file function, cFunctionOf? (pieces '.' name) = some function →
      P ws (.edit file (.file (.library function.library)))) :
    Runs P (targetNamed start name) ws fun t ws' =>
      ws.targetAt? start name = some t ∧ ws' = ws.noting start t := by
  intro _
  cases h : ws.targetAt? start name with
  | none =>
    obtain ⟨e, he⟩ := targetNamed_of_targetAt?_eq_none hl h
    rw [he]
    exact .refl P ws
  | some t =>
    rw [targetNamed_eq_of_loaded hl h]
    refine ⟨?_, rfl, rfl⟩
    cases t with
    | component id => exact .refl P ws
    | native function =>
      have hfunction : cFunctionOf? (pieces '.' name) = some function := by
        rw [targetAt?] at h
        split at h
        · next hname =>
          cases h
          exact hname
        · split at h
          · cases h
          · obtain ⟨_, -, hcomponent⟩ := Option.map_eq_some_iff.mp h
            cases hcomponent
      rw [noting]
      split
      · next file _ => exact .single _ trivial (hnote file function hfunction)
      · exact .refl P ws

theorem runs_componentNamed_of_loaded (hl : ws.Loaded) (start : ComponentId)
    (hnote : ∀ file function, cFunctionOf? (pieces '.' name) = some function →
      P ws (.edit file (.file (.library function.library)))) :
    Runs P (componentNamed start name) ws fun id ws' =>
      ws.targetAt? start name = some (.component id) ∧ ws' = ws := by
  refine .bind (runs_targetNamed_of_loaded hl start hnote) ?_
  rintro t _ - - ⟨ht, rfl⟩
  cases t with
  | component id => exact .pure ⟨ht, rfl⟩
  | native f => exact .throw _

end Build

/-! ## Alike workspaces -/

/-- The file without what settling and writing change. -/
def SourceFile.still (f : SourceFile) : SourceFile :=
  { path := f.path, isDirectory := f.isDirectory, loaded := f.loaded, language? := f.language?,
    project? := f.project? }

/-- The kind without what settling and writing change. -/
def Kind.still : Kind → Kind
  | .file f => .file f.still
  | .operation o => .operation { o with target? := none }
  | k => k

/-- The component without what settling and writing change. -/
def Component.still (c : Component) : Component :=
  { c with kind := c.kind.still, referenced := false, written := false, buffer := {} }

/-- The instruction without its line; a literal may be any. -/
def Instruction.still (i : Instruction) : Instruction :=
  { i with name := if (Literal.reading i.name).isValue then "0" else i.name, line? := none }

/-- The workspaces differ only in what settling and writing change. -/
structure Workspace.Alike (ws ws' : Workspace) : Prop where
  size_eq : ws'.size = ws.size
  component : ∀ id, (ws'.component id).still = (ws.component id).still
  instruction : ∀ i, (ws'.forest.get i).still = (ws.forest.get i).still

namespace Workspace.Alike

variable {ws ws' : Workspace}

theorem refl (ws : Workspace) : ws.Alike ws := ⟨rfl, fun _ => rfl, fun _ => rfl⟩

theorem symm (h : ws.Alike ws') : ws'.Alike ws :=
  ⟨h.size_eq.symm, fun id => (h.component id).symm, fun i => (h.instruction i).symm⟩

theorem trans {ws'' : Workspace} (h : ws.Alike ws') (h' : ws'.Alike ws'') : ws.Alike ws'' where
  size_eq := h'.size_eq.trans h.size_eq
  component id := (h'.component id).trans (h.component id)
  instruction i := (h'.instruction i).trans (h.instruction i)

/-! ### One component -/

section

variable (h : ws.Alike ws') (id : ComponentId)

include h

theorem of_component {β : Type} (view : Component → β) (hview : ∀ c : Component, view c.still = view c) :
    view (ws'.component id) = view (ws.component id) := by
  rw [← hview, h.component, hview]

theorem name_eq : (ws'.component id).name = (ws.component id).name :=
  h.of_component id name fun _ => rfl

theorem parent?_eq : (ws'.component id).parent? = (ws.component id).parent? :=
  h.of_component id parent? fun _ => rfl

theorem child?_eq (name : String) : (ws'.component id).child? name = (ws.component id).child? name :=
  h.of_component id (child? · name) fun _ => rfl

theorem childIds_eq : (ws'.component id).childIds = (ws.component id).childIds :=
  h.of_component id childIds fun _ => rfl

theorem instruction?_eq : (ws'.component id).instruction? = (ws.component id).instruction? :=
  h.of_component id instruction? fun _ => rfl

theorem kind_eq : (ws'.kind id).still = (ws.kind id).still :=
  congrArg Component.kind (h.component id)

end

end Workspace.Alike

namespace Kind

@[simp] theorem isFile_still (k : Kind) : k.still.isFile = k.isFile := by
  cases k <;> rfl

@[simp] theorem file?_still (k : Kind) : k.still.file? = k.file?.map SourceFile.still := by
  cases k <;> rfl

@[simp] theorem memberType?_still (k : Kind) : k.still.memberType? = k.memberType? := by
  cases k <;> rfl

@[simp] theorem result?_still (k : Kind) : k.still.result? = k.result? := by
  cases k <;> rfl

@[simp] theorem params_still (k : Kind) : k.still.params = k.params := by
  cases k <;> rfl

/-- Kinds that are the same without what settling and writing change are the same, or two operations
that do the same, or two files. -/
theorem cases_of_still_eq {k k' : Kind} (h : k'.still = k.still) :
    k' = k ∨ (∃ o o', k = .operation o ∧ k' = .operation o' ∧ o'.action = o.action) ∨
      ∃ f f', k = .file f ∧ k' = .file f' := by
  cases k' with
  | operation o' =>
    cases k with
    | operation o =>
      simp only [still, Kind.operation.injEq, Operation.mk.injEq] at h
      exact .inr (.inl ⟨o, o', rfl, rfl, h.1⟩)
    | _ => cases h
  | file f' =>
    cases k with
    | file f => exact .inr (.inr ⟨f, f', rfl, rfl⟩)
    | _ => cases h
  | _ =>
    cases k with
    | operation | file => cases h
    | _ => exact .inl h

end Kind

namespace Workspace.Alike

variable {ws ws' : Workspace} (h : ws.Alike ws') (id : ComponentId)

include h

theorem of_kind {β : Type} (view : Kind → β) (hview : ∀ k : Kind, view k.still = view k)
    (id : ComponentId) : view (ws'.kind id) = view (ws.kind id) := by
  rw [← hview, h.kind_eq, hview]

theorem isFile_eq : ws'.isFile id = ws.isFile id :=
  h.of_kind Kind.isFile Kind.isFile_still id

theorem file?_eq : (ws'.component id).file?.map SourceFile.still =
    (ws.component id).file?.map SourceFile.still := by
  have hfile := congrArg Kind.file? (h.kind_eq id)
  rwa [Kind.file?_still, Kind.file?_still] at hfile

theorem loaded (hl : ws.Loaded) : ws'.Loaded := by
  intro id f hf
  have hfile := h.file?_eq id
  rw [hf] at hfile
  obtain ⟨f', hf', hstill⟩ := Option.map_eq_some_iff.mp hfile.symm
  have hloaded : f'.still.loaded = f.still.loaded := by rw [hstill]
  exact hloaded.symm.trans (hl id f' hf')

/-! ### Around a component -/

theorem enclosingWithin_eq (bound : Nat) (id : ComponentId) :
    ws'.enclosingWithin bound id = ws.enclosingWithin bound id := by
  induction bound generalizing id with
  | zero => rfl
  | succ bound ih =>
    rw [enclosingWithin, enclosingWithin, h.parent?_eq]
    cases (ws.component id).parent? with
    | none => rfl
    | some parent =>
      dsimp only
      rw [ih]

theorem enclosing_eq : ws'.enclosing id = ws.enclosing id :=
  h.enclosingWithin_eq (id + 1) id

theorem fileOf?_eq : ws'.fileOf? id = ws.fileOf? id := by
  rw [fileOf?, h.enclosing_eq, fileOf?, funext h.isFile_eq]

theorem languageAt_eq : ws'.languageAt id = ws.languageAt id := by
  rw [languageAt, h.fileOf?_eq, languageAt]
  cases ws.fileOf? id with
  | none => rfl
  | some file =>
    have hlanguage : ∀ f? : Option SourceFile,
        f?.bind SourceFile.language? = (f?.map SourceFile.still).bind SourceFile.language? := by
      intro f?
      cases f? <;> rfl
    simp only [Option.bind_some]
    rw [hlanguage, h.file?_eq, ← hlanguage]

theorem nearest?_eq (start : ComponentId) (name : String) :
    ws'.nearest? start name = ws.nearest? start name := by
  simp only [nearest?, h.enclosing_eq, h.child?_eq]

theorem childAt?_eq (names : List String) :
    ws'.childAt? id names = ws.childAt? id names := by
  induction names generalizing id with
  | nil => rfl
  | cons name rest ih =>
    rw [childAt?, childAt?, h.child?_eq]
    cases (ws.component id).child? name with
    | none => rfl
    | some child => exact ih child

/-- **Names lead to the same things in both.** -/
theorem targetAt?_eq (start : ComponentId) (name : String) :
    ws'.targetAt? start name = ws.targetAt? start name := by
  simp only [targetAt?, h.nearest?_eq, h.childAt?_eq]

theorem memberType?_eq : (ws'.kind id).memberType? = (ws.kind id).memberType? :=
  h.of_kind Kind.memberType? Kind.memberType?_still id

theorem parameterTypes_eq : ws'.parameterTypes id = ws.parameterTypes id := by
  simp only [parameterTypes, h.of_kind Kind.params Kind.params_still, h.memberType?_eq]

/-! ### Values -/

theorem of_instruction {β : Type} (view : Instruction → β) (hview : ∀ i : Instruction, view i.still = view i)
    (i : InstructionId) :
    view (ws'.forest.get i) = view (ws.forest.get i) := by
  rw [← hview, h.instruction, hview]

theorem children_eq (i : InstructionId) : (ws'.forest.get i).children = (ws.forest.get i).children :=
  h.of_instruction Instruction.children (fun _ => rfl) i

theorem childId?_eq (i : InstructionId) (pos : Nat) :
    ws'.forest.childId? i pos = ws.forest.childId? i pos := by
  rw [Forest.childId?, h.children_eq, Forest.childId?]

theorem name_eq_or (i : InstructionId) : (ws'.forest.get i).name = (ws.forest.get i).name ∨
    ((Literal.reading (ws'.forest.get i).name).isValue = true ∧
      (Literal.reading (ws.forest.get i).name).isValue = true) := by
  have hname := congrArg Instruction.name (h.instruction i)
  have hzero : (Literal.reading "0").isValue = true := by decide
  simp only [Instruction.still] at hname
  split at hname <;> split at hname
  · next h₁ h₂ => exact .inr ⟨h₁, h₂⟩
  · next hno =>
    rw [← hname] at hno
    exact absurd hzero hno
  · next hno _ =>
    rw [hname] at hno
    exact absurd hzero hno
  · exact .inl hname

theorem action?_eq : ws'.action? id = ws.action? id := by
  refine h.of_kind (fun k => match k with | .operation o => some o.action | _ => none) (fun k => ?_) id
  cases k <;> rfl

theorem actionTarget?_eq : ws'.actionTarget? id = ws.actionTarget? id := by
  rw [actionTarget?, h.action?_eq, funext (h.targetAt?_eq id), actionTarget?]

end Workspace.Alike

/-! ### Changes between alike workspaces -/

/-- The edit is of what settling and writing change. -/
def Edit.Quiet : Edit → Prop
  | .referenced | .resolved _ | .text _ | .written | .cleared => True
  | .file g =>
    match g with
    | .settled | .library _ | .dependency _ | .lineEnd | .restart | .output _ | .included _ => True
    | _ => False
  | _ => False

/-- The change is of what settling and writing change. -/
def Change.Quiet (ws : Workspace) : Change → Prop
  | .edit _ e => e.Quiet
  | .rename id name => (Literal.reading (ws.forest.get id).name).isValue = true ∧
      (Literal.reading name).isValue = true
  | .root .. | .below .. | .plant _ | .plantBelow .. => False
  | _ => True

theorem FileEdit.still_apply {g : FileEdit} (h : (Edit.file g).Quiet) (f : SourceFile) :
    (g.apply f).still = f.still := by
  cases g with
  | library | dependency =>
    simp only [apply]
    split <;> rfl
  | loaded | language | project => exact h.elim
  | _ => rfl

theorem Edit.still_apply {e : Edit} (h : e.Quiet) (c : Component) : (e.apply c).still = c.still := by
  cases e with
  | resolved target? =>
    simp only [apply]
    split
    · next o ho => simp [still, Kind.still, ho]
    · rfl
  | file g =>
    have hkind : (c.kind.mapFile g.apply).still = c.kind.still := by
      cases hk : c.kind with
      | file f => simp [Kind.mapFile, Kind.still, FileEdit.still_apply h f]
      | _ => rfl
    simp only [apply, still, hkind]
  | forward | settings | param | source => exact h.elim
  | _ => rfl

/-- **A quiet change leads to an alike workspace.** -/
theorem Change.Quiet.alike {c : Change} (h : c.Quiet ws) : ws.Alike (c.apply ws) := by
  cases c with
  | edit id e =>
    exact ⟨by simp [apply], ws.modify_keeps id still (Edit.still_apply h), fun _ => rfl⟩
  | rename id name =>
    refine ⟨rfl, fun _ => rfl, fun i => ?_⟩
    simp only [apply, Forest.setName, Forest.get_modify_eq]
    split
    · next hi =>
      rw [hi.1]
      simp [Instruction.still, h.1, h.2]
    · rfl
  | stamp id line =>
    refine ⟨rfl, fun _ => rfl, fun i => ?_⟩
    simp only [apply, Forest.stamp, Forest.get_modify_eq]
    split <;> rfl
  | root | below | plant | plantBelow => exact h.elim
  | _ => exact ⟨rfl, fun _ => rfl, fun _ => rfl⟩

/-- **Quiet changes lead to an alike workspace.** -/
theorem Reach.alike {P : Change.Class} {ws' : Workspace} (h : Reach P ws ws') (hs : ws.Sound)
    (hP : ∀ ws c, P ws c → c.Quiet ws) : ws.Alike ws' :=
  h.invariant (I := fun ws' => ws.Alike ws') hs (.refl ws) fun next c _ _ hc halike =>
    halike.trans (hP next c hc).alike

end LightHeaders
