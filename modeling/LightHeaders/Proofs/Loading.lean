import LightHeaders.Proofs.Literals
import LightHeaders.Proofs.Runs
import LightHeaders.Proofs.Sources

set_option autoImplicit false

/-! # What loading does

Loading a file makes changes of one class (`Loads`): it adds instructions that are new, and for
each of them at most one component, whose name and kind come from that instruction. Nothing else is
touched but the fields that say that the file is loaded, the libraries its names use, and where the
text of a nested function goes (`makes_load`).

An instruction that a component was made from is never used again (`Loads`, in `declare` and
`source`): the class says which instructions can be used, and loads inside one another use only
those that were added last.
-/

namespace LightHeaders

open Text InstructionTree

/-! ## Names on one line -/

variable {f : CFunction} {name : String}

theorem CFunction.oneLine_of_parse? (hn : OneLine name)
    (h : CFunction.parse? name = some f) : OneLine f.library ∧ OneLine f.name := by
  unfold CFunction.parse? at h
  obtain ⟨rest, hrest, h⟩ := Option.bind_eq_some_iff.mp h
  obtain ⟨⟨library, function⟩, hcut, h⟩ := Option.bind_eq_some_iff.mp h
  dsimp only at h
  split at h
  · cases h
  · cases h
    have hname : '\n' ∉ rest := fun hmem => hn (by
      rw [← (List.isPrefixOf?_eq_some_iff_append_eq.mp hrest)]
      exact List.mem_append_right _ hmem)
    rw [(Line.cutFirst?_eq_some hcut).2, List.mem_append, List.mem_cons, not_or, not_or] at hname
    exact ⟨oneLine_ofList hname.1, oneLine_ofList hname.2.2⟩

theorem Build.oneLine_of_cFunctionOf? (hn : OneLine name)
    (h : Build.cFunctionOf? (pieces '.' name) = some f) : OneLine f.library ∧ OneLine f.name := by
  unfold Build.cFunctionOf? at h
  split at h
  · next single hs =>
    exact CFunction.oneLine_of_parse? (oneLine_of_mem_pieces hn (by rw [hs]; simp)) h
  · cases h

/-- The names in a kind stand on one line. -/
def Kind.OneLine : Kind → Prop
  | .function s => ∀ type, s.result? = some type → LightHeaders.OneLine type
  | .member m => LightHeaders.OneLine m.type
  | .operation o =>
    match o.action with
    | .call name | .assign name => LightHeaders.OneLine name
    | .giveBack => True
  | _ => True

/-- A kind that nothing is resolved for and nothing declared below. -/
def Kind.Unsettled : Kind → Prop
  | .function s => s.params = []
  | .operation o => o.target? = none
  | _ => True

/-! ## Resolving names -/

/-- The target is what the segments of a name say: a component that is there and has one of them
for its name, or the native function they stand for. -/
def Target.Fits (ws : Workspace) (segments : List String) : Target → Prop
  | .component id => id < ws.size ∧ (ws.component id).name ∈ segments
  | .native f => Build.cFunctionOf? segments = some f

/-- A name that leads somewhere leads to what it says. -/
def Resolution.Fits (ws : Workspace) (segments : List String) (r : Resolution) : Prop :=
  ∀ t, r = .found t → t.Fits ws segments

namespace Build

section Names

variable {P : Change.Class} {F : Prop} {load : ComponentId → Build Unit} {ws : Workspace}

/-- From `ws` on, `load` makes only changes of the class `P`. -/
def LoadsFrom (P : Change.Class) (load : ComponentId → Build Unit) (ws : Workspace) : Prop :=
  ∀ ws', Reach P ws ws' → ∀ id, id < ws'.size → Makes P (load id) ws'

theorem LoadsFrom.after {ws' : Workspace} (h : LoadsFrom P load ws) (hreach : Reach P ws ws') :
    LoadsFrom P load ws' :=
  fun _ hreach' => h _ (hreach.trans hreach')

/-- The class has all notes of libraries; where `F` holds they stand on one line. -/
def NotesLibraries (P : Change.Class) (F : Prop) : Prop :=
  ∀ ws file library, (F → OneLine library) → P ws (.edit file (.file (.library library)))

theorem runs_descend (segments : List String) {found : ComponentId} {read : List String}
    (hload : LoadsFrom P load ws) (hfound : found < ws.size) (hname : (ws.component found).name ∈ read) :
    Runs P (descend load found read segments) ws fun r ws' => r.Fits ws' (read ++ segments) := by
  induction segments generalizing ws found read with
  | nil =>
    refine .pure ?_
    rintro _ ⟨⟩
    rw [List.append_nil]
    exact ⟨hfound, hname⟩
  | cons segment rest ih =>
    unfold descend
    refine .get fun _ => ?_
    -- once a file is loaded its child decides
    refine .first (fun _ => hload ws (.refl P ws) found hfound) fun ws' hs' hreach => ?_
    refine .component fun _ => ?_
    split
    · next child hchild =>
      have hn := (hs'.child hchild).2.2.1
      have h := ih (hload.after hreach) (hs'.lt_of_child? hchild)
        (show (ws'.component child).name ∈ read ++ [segment] by rw [hn]; simp)
      rwa [List.append_assoc, List.singleton_append] at h
    · exact .pure (by rintro _ ⟨⟩)

theorem runs_lookUpSegments (segments : List String) (start : ComponentId) (hload : LoadsFrom P load ws) :
    Runs P (lookUpSegments load start segments) ws fun r ws' => r.Fits ws' segments := by
  cases segments with
  | nil => exact .pure (by rintro _ ⟨⟩)
  | cons first rest =>
    refine .get fun hs => ?_
    split
    · exact .pure (by rintro _ ⟨⟩)
    · next found hfound =>
      obtain ⟨scope, -, hchild⟩ := List.exists_of_findSome?_eq_some hfound
      refine runs_descend rest hload (hs.lt_of_child? hchild) ?_
      rw [(hs.child hchild).2.2.1]
      exact List.mem_singleton.mpr rfl

variable {name : String}

theorem runs_lookUpWith (start : ComponentId) (hload : LoadsFrom P load ws) (hlib : NotesLibraries P F)
    (hname : F → OneLine name) :
    Runs P (lookUpWith load start name) ws fun r ws' => r.Fits ws' (pieces '.' name) := by
  unfold lookUpWith
  dsimp only
  split
  · next function hf =>
    have hdone : ∀ ws' : Workspace, Runs P (pure (.found (.native function)) : Build Resolution)
        ws' fun r ws'' => r.Fits ws'' (pieces '.' name) := by
      intro ws'
      refine .pure ?_
      rintro _ ⟨⟩
      exact hf
    refine .get fun _ => ?_
    split
    · refine .bind (Makes.editFile (.library function.library) ?_ rfl)
        fun _ ws' _ _ _ => hdone ws'
      exact hlib _ _ _ fun h => (oneLine_of_cFunctionOf? (hname h) hf).1
    · exact hdone ws
  · exact runs_lookUpSegments _ start hload

theorem runs_targetWith (start : ComponentId) (hload : LoadsFrom P load ws) (hlib : NotesLibraries P F)
    (hname : F → OneLine name) :
    Runs P (targetWith load start name) ws fun t ws' => t.Fits ws' (pieces '.' name) := by
  refine .bind (runs_lookUpWith start hload hlib hname) fun r ws' _ _ hr => ?_
  cases r with
  | found t => exact .pure (hr t rfl)
  | missing path => exact .throw _

theorem runs_componentNamedWith (start : ComponentId) (hload : LoadsFrom P load ws)
    (hlib : NotesLibraries P F) (hname : F → OneLine name) :
    Runs P (componentNamedWith load start name) ws fun id ws' =>
      id < ws'.size ∧ (ws'.component id).name ∈ pieces '.' name := by
  refine .bind (runs_targetWith start hload hlib hname) fun t ws' _ _ ht => ?_
  cases t with
  | component id => exact .pure ht
  | native f => exact .throw _

theorem runs_baseWith {start : ComponentId} (hload : LoadsFrom P load ws) (hlib : NotesLibraries P F)
    (hname : F → OneLine name) (hstart : start < ws.size) :
    Runs P (baseWith load start name) ws fun r ws' =>
      r.1 < ws'.size ∧ (F → OneLine r.2) ∧ ('.' ∉ name.toList → r.1 = start) := by
  unfold baseWith
  split
  · exact .pure ⟨hstart, hname, fun _ => rfl⟩
  · next front last hcut =>
    have hcs := cutLast?_eq_some hcut
    have hmem : F → '\n' ∉ front ∧ '\n' ∉ last := by
      intro h
      have hn := hname h
      rw [OneLine, hcs, List.mem_append, List.mem_cons, not_or, not_or] at hn
      exact ⟨hn.1, hn.2.2⟩
    refine .bind (runs_componentNamedWith start hload hlib fun h =>
      oneLine_ofList (hmem h).1) fun base ws' _ _ hbase => ?_
    refine .pure ⟨hbase.1, fun h => oneLine_ofList (hmem h).2, fun hdot => absurd ?_ hdot⟩
    rw [hcs]
    exact List.mem_append_right _ (.head _)

end Names

end Build

/-! ## Functions inside functions -/

/-- The instruction `i` stands below `j` and was read with the name. If it is a value, it can be spelled
otherwise by now. -/
def Forest.Lists (f : Forest) (j i : InstructionId) (name : String) : Prop :=
  i ∈ (f.get j).children ∧ ((f.get i).name = name ∨ (Literal.reading (f.get i).name).isValue = true)

/-- A change that says only of files what they were made from, and renames only values. -/
def Change.Steady (ws : Workspace) : Change → Prop
  | .edit id (.source _) => ws.isFile id = true
  | .rename i name => (Literal.reading (ws.forest.get i).name).isValue = true ∧
      (Literal.reading name).isValue = true
  | _ => True

/-- The component is a function that was made from the instruction. -/
def Workspace.FunctionFrom (ws : Workspace) (id : ComponentId) (i : InstructionId) : Prop :=
  (∃ s, ws.kind id = .function s) ∧ (ws.component id).instruction? = some i

/-- The function is declared in the body of another one, by a name. It stands there unless the name has
dots. -/
def Workspace.NestedIn (ws : Workspace) (nested function : ComponentId) : Prop :=
  ∃ i j name, ws.FunctionFrom nested i ∧ ws.FunctionFrom function j ∧ ws.forest.Lists j i name ∧
    ('.' ∉ name.toList → (ws.component nested).parent? = some function)

section Steady

variable {ws : Workspace} {c : Change}

theorem Forest.Lists.apply {j i : InstructionId} (h : ws.forest.Lists j i name) (hs : ws.Sound)
    (legal : c.Legal ws) (hc : c.Steady ws) : (c.apply ws).forest.Lists j i name := by
  obtain ⟨hafter, hlt⟩ := hs.forest.later h.1
  cases c with
  | plant x =>
    rw [Change.apply, Lists, Forest.get_add, Forest.get_add, if_neg (Nat.ne_of_lt (hafter.trans hlt)),
      if_neg (Nat.ne_of_lt hlt)]
    exact h
  | plantBelow parent x =>
    have hname : ((ws.forest.addChild parent x).2.get i).name = (ws.forest.get i).name := by
      by_cases hi : i = parent
      · rw [hi, Forest.get_addChild_parent _ legal.1]
      · rw [Forest.get_addChild_of_ne _ hlt hi]
    rw [Change.apply, Lists, hname, Forest.children_addChild _ legal.1 legal.2]
    refine ⟨?_, h.2⟩
    split
    · exact List.mem_append_left _ h.1
    · rw [if_neg (Nat.ne_of_lt (hafter.trans hlt))]
      exact h.1
  | rename k other =>
    simp only [Change.apply, Lists, Forest.setName, Forest.get_modify_eq]
    refine ⟨by split <;> exact h.1, ?_⟩
    split
    · exact .inr hc.2
    · exact h.2
  | stamp k line =>
    simp only [Change.apply, Lists, Forest.stamp, Forest.get_modify_eq]
    refine ⟨by split <;> exact h.1, ?_⟩
    split <;> exact h.2
  | _ => exact h

namespace Workspace

variable {id : ComponentId} {i : InstructionId}

theorem FunctionFrom.lt_size (h : ws.FunctionFrom id i) : id < ws.size := by
  refine Nat.lt_of_not_le fun hle => ?_
  rw [FunctionFrom, ws.component_of_size_le hle] at h
  cases h.2

theorem FunctionFrom.isFile (h : ws.FunctionFrom id i) : ws.isFile id = false := by
  obtain ⟨⟨s, hs⟩, -⟩ := h
  rw [Workspace.isFile, hs]
  rfl

theorem FunctionFrom.apply (h : ws.FunctionFrom id i) (legal : c.Legal ws) (hc : c.Steady ws) :
    (c.apply ws).FunctionFrom id i := by
  obtain ⟨s, hs⟩ := h.1
  refine ⟨Kind.exists_of_describe ((c.describe_apply legal h.lt_size).trans (by rw [hs]; rfl)), ?_⟩
  rcases c.instruction?_apply legal id with hsame | ⟨_, -, ⟨hid, -⟩ | rfl⟩
  · exact hsame.trans h.2
  · exact absurd hid (Nat.ne_of_lt h.lt_size)
  · exact absurd (h.isFile.symm.trans hc) Bool.false_ne_true

/-- **Where a function is declared does not change.** -/
theorem NestedIn.apply {nested function : ComponentId} (h : ws.NestedIn nested function) (hs : ws.Sound)
    (legal : c.Legal ws) (hc : c.Steady ws) : (c.apply ws).NestedIn nested function := by
  obtain ⟨i, j, name, hnested, hfunction, hlists, hparent⟩ := h
  refine ⟨i, j, name, hnested.apply legal hc, hfunction.apply legal hc, hlists.apply hs legal hc,
    fun hdot => ?_⟩
  rw [(c.extends_apply legal).parent? hnested.lt_size]
  exact hparent hdot

end Workspace

end Steady

/-! ## The changes that loading makes -/

/-- No component was made from the instruction. -/
def Workspace.Unused (ws : Workspace) (i : InstructionId) : Prop :=
  ∀ id, (ws.component id).instruction? ≠ some i

/-- No two components were made from one instruction. -/
def Workspace.Apart (ws : Workspace) : Prop :=
  ∀ a b i, (ws.component a).instruction? = some i → (ws.component b).instruction? = some i → a = b

/-- A file is in a language if its path says so and there is text to read. -/
def Workspace.Readable (ws : Workspace) (file : ComponentId) (l : Language) : Prop :=
  ∀ f, (ws.component file).file? = some f →
    Language.ofPath? f.path = some l ∧ ∃ s, ws.disk.readText f.path = .ok s

/-- The changes that loading makes, with components only from instructions that meet `S`. -/
inductive Loads (S : InstructionId → Prop) (ws : Workspace) : Change → Prop
  | loaded (file : ComponentId) : Loads S ws (.edit file (.file .loaded))
  | opened (file : ComponentId) : Loads S ws (.record (.opened file))
  | language {file : ComponentId} {l : Language} (readable : ws.Readable file l) :
      Loads S ws (.edit file (.file (.language l)))
  | library (file : ComponentId) {name : String} (one : OneLine name) :
      Loads S ws (.edit file (.file (.library name)))
  | plant {i : Instruction} (one : i.OneLine) : Loads S ws (.plant i)
  | plantBelow (parent : InstructionId) {i : Instruction} (one : i.OneLine) :
      Loads S ws (.plantBelow parent i)
  | source {file : ComponentId} {root : InstructionId} (mem : S root) (unused : ws.Unused root)
      (isFile : ws.isFile file = true) : Loads S ws (.edit file (.source root))
  | declare (parent : ComponentId) {name : String} {kind : Kind} {i : InstructionId} (mem : S i)
      (unused : ws.Unused i) (name_one : OneLine name) (kind_one : kind.OneLine)
      (unsettled : kind.Unsettled) (noFile : kind.isFile = false) :
      Loads S ws (.below parent name kind (some i))
  | settings (id : ComponentId) (more : List (String × String)) :
      Loads S ws (.edit id (.settings more))
  | param (function : ComponentId) {param : ComponentId} (there : param < ws.size)
      (noFile : ws.isFile param = false) : Loads S ws (.edit function (.param param))
  | forward {nested file : ComponentId} (noFile : ws.isFile nested = false) (isFile : ws.isFile file = true)
      (declared : ∃ function, ws.NestedIn nested function ∧ ws.fileOf? function = some file) :
      Loads S ws (.edit nested (.forward file))

variable {S : InstructionId → Prop}

theorem Loads.mono {T : InstructionId → Prop} (hST : ∀ i, S i → T i) (ws : Workspace) (c : Change)
    (h : Loads S ws c) : Loads T ws c := by
  cases h with
  | source mem unused isFile => exact .source (hST _ mem) unused isFile
  | declare parent mem unused name_one kind_one unsettled noFile =>
    exact .declare parent (hST _ mem) unused name_one kind_one unsettled noFile
  | _ => constructor <;> assumption

theorem Loads.steady {ws : Workspace} {c : Change} (h : Loads S ws c) : c.Steady ws := by
  cases h with
  | source _ _ isFile => exact isFile
  | _ => exact trivial

theorem notesLibraries_loads (S : InstructionId → Prop) : Build.NotesLibraries (Loads S) True :=
  fun _ file _ h => .library file (h trivial)

theorem Reach.unused {ws ws' : Workspace} (h : Reach (Loads S) ws ws') (hs : ws.Sound) {i : InstructionId}
    (hi : ¬S i) (hu : ws.Unused i) : ws'.Unused i := by
  refine h.invariant (I := fun ws => ws.Unused i) hs hu fun ws c _ legal hc hu id => ?_
  rcases c.instruction?_apply legal id with hsame | ⟨j, hnew, ⟨-, _, _, _, rfl⟩ | rfl⟩
  · rw [hsame]
    exact hu id
  · rw [hnew]
    cases hc with
    | declare _ mem => exact fun hj => hi (Option.some.inj hj ▸ mem)
  · rw [hnew]
    cases hc with
    | source mem => exact fun hj => hi (Option.some.inj hj ▸ mem)

/-- The instructions of a list and those from number `n` on. -/
def Usable (n : Nat) (ids : List InstructionId) (i : InstructionId) : Prop := i ∈ ids ∨ n ≤ i

theorem Usable.mono {n m : Nat} {ids ids' : List InstructionId} (hids : ids ⊆ ids') (hn : m ≤ n)
    (i : InstructionId) (h : Usable n ids i) : Usable m ids' i :=
  Or.imp (fun hi => hids hi) (le_trans hn) h

namespace Build

section Contents

variable {load : ComponentId → Build Unit} {ws : Workspace}

/-- Loading uses only instructions that it adds itself. -/
def LoadsNew (load : ComponentId → Build Unit) : Prop :=
  ∀ ws id, id < ws.size → Makes (Loads (Usable ws.forest.size [])) (load id) ws

theorem LoadsNew.loadsFrom (h : LoadsNew load) {n : Nat} (hn : n ≤ ws.forest.size)
    (ids : List InstructionId) : LoadsFrom (Loads (Usable n ids)) load ws := by
  intro ws' hreach id hid
  have hle : n ≤ ws'.forest.size := le_trans hn hreach.extension.forest_le
  exact (h ws' id hid).mono (Loads.mono (Usable.mono (List.nil_subset _) hle))

/-- An instruction of a source that is being read. -/
structure Fresh (ws : Workspace) (node : InstructionId × Instruction) : Prop where
  lt : node.1 < ws.forest.size
  unused : ws.Unused node.1
  one : node.2.OneLine

theorem Fresh.after {ws' : Workspace} {node : InstructionId × Instruction} (h : Fresh ws node) (hs : ws.Sound)
    {ids : List InstructionId} (hnot : node.1 ∉ ids)
    (hreach : Reach (Loads (Usable ws.forest.size ids)) ws ws') : Fresh ws' node where
  lt := lt_of_lt_of_le h.lt hreach.extension.forest_le
  unused := hreach.unused hs (fun hor => hor.elim hnot (Nat.not_le_of_lt h.lt)) h.unused
  one := h.one

variable {action : Action} {id child : ComponentId} {g : Forest} {i : Instruction} {source : InstructionId}
  {kind : Kind}

/-- What a declaration makes. -/
structure Declared (ws : Workspace) (id : ComponentId) (source : InstructionId) (name : String) (kind : Kind)
    (child : ComponentId) : Prop where
  lt : child < ws.size
  kind : ws.kind child = kind
  source : (ws.component child).instruction? = some source
  parent : '.' ∉ name.toList → (ws.component child).parent? = some id

theorem Declared.isFile (h : Declared ws id source name kind child) (hfile : kind.isFile = false) :
    ws.isFile child = false := by
  rw [Workspace.isFile, h.kind]
  exact hfile

theorem runs_declare (hload : LoadsNew load) (hid : id < ws.size) (hi : Fresh ws (source, i))
    (hone : kind.OneLine) (hopen : kind.Unsettled) (hfile : kind.isFile = false) :
    Runs (Loads (Usable ws.forest.size [source])) (declare load id source i kind) ws
      fun child ws' => Declared ws' id source i.name kind child := by
  -- resolving the front of the name leaves the instruction unused
  have hbase : Runs (Loads (Usable ws.forest.size [source])) (baseWith load id i.name) ws
      fun r ws' => (r.1 < ws'.size ∧ OneLine r.2 ∧ ('.' ∉ i.name.toList → r.1 = id)) ∧
        Fresh ws' (source, i) := by
    intro hs
    refine ((runs_baseWith (hload.loadsFrom le_rfl []) (notesLibraries_loads _)
      (fun _ => hi.one.name) hid).weaken fun r ws' _ hreach hr =>
        ⟨⟨hr.1, hr.2.1 trivial, hr.2.2⟩, hi.after hs (by simp) hreach⟩).mono ?_ hs
    exact Loads.mono (Usable.mono (List.nil_subset _) le_rfl)
  unfold declare addComponentWith
  rw [bind_assoc]
  refine .bind hbase ?_
  rintro r next _ _ ⟨⟨hlt, hlast, hbase⟩, hfresh⟩
  have hbelow : Runs (Loads (Usable ws.forest.size [source])) (addBelow r.1 r.2 kind (some source))
      next fun child ws' => Declared ws' id source i.name kind child := by
    refine (Runs.addBelow ⟨hlt, ?_⟩ ?_).weaken ?_
    · rintro _ ⟨⟩
      exact hfresh.lt
    · exact .declare r.1 (.inl (List.mem_singleton.mpr rfl)) hfresh.unused hlast hone hopen hfile
    · rintro child ws' - - ⟨rfl, rfl⟩
      have hmade := Change.component_below hlt r.2 kind (some source) next.size
      rw [if_pos rfl] at hmade
      refine ⟨by rw [Change.size_below]; exact Nat.lt_succ_self _, by rw [Workspace.kind, hmade],
        by rw [hmade], fun hdot => by rw [hmade, hbase hdot]⟩
  refine .bind hbelow fun child made _ _ hchild => ?_
  refine .bind (.change (.edit child (.settings i.attributes)) rfl trivial (.settings _ _) ?_)
    fun _ _ _ _ hdeclared => .pure hdeclared
  have hkeeps := fun {β : Type} (view : Component → β) =>
    made.modify_keeps child (g := (Edit.settings i.attributes).apply) view
  exact ⟨by rw [Change.apply, Workspace.size_modify]; exact hchild.lt,
    (hkeeps Component.kind (fun _ => rfl) child).trans hchild.kind,
    (hkeeps Component.instruction? (fun _ => rfl) child).trans hchild.source,
    fun hdot => (hkeeps Component.parent? (fun _ => rfl) child).trans (hchild.parent hdot)⟩

theorem runs_declareMember (hload : LoadsNew load) (hid : id < ws.size) (hi : Fresh ws (source, i))
    (isParam : Bool) :
    Runs (Loads (Usable ws.forest.size [source])) (declareMember load id source i isParam) ws
      fun child ws' => child < ws'.size ∧ ws'.isFile child = false := by
  unfold declareMember
  split
  · exact .throw _
  · next type htype =>
    refine (runs_declare hload hid hi ?_ ?_ rfl).weaken fun _ _ _ _ h => ⟨h.lt, h.isFile rfl⟩
    · exact hi.one.type type htype
    · exact trivial

theorem makes_declareParam (hload : LoadsNew load) (hid : id < ws.size) (hi : Fresh ws (source, i)) :
    Makes (Loads (Usable ws.forest.size [source])) (declareParam load id source i) ws := by
  refine .bind (runs_declareMember hload hid hi true) ?_
  rintro param _ _ _ ⟨hthere, hfile⟩
  exact Makes.edit (.param param) trivial (.param _ hthere hfile) rfl

theorem oneLine_of_action? (h : action? i = some action)
    (hi : i.OneLine) : OneLine i.op ∧ Kind.OneLine (.operation { action }) := by
  unfold action? at h
  split at h <;> cases h
  · next hop => exact ⟨by rw [hop]; decide, hi.name⟩
  · next hop => exact ⟨by rw [hop]; decide, hi.name⟩
  · next hop => exact ⟨by rw [hop]; decide, trivial⟩

theorem makes_addOperation (hid : id < ws.size) (hi : Fresh ws (source, i)) (ha : action? i = some action) :
    Makes (Loads (Usable ws.forest.size [source])) (addOperation id source i action) ws := by
  obtain ⟨hop, hone⟩ := oneLine_of_action? ha hi.one
  refine .component fun _ => ?_
  refine .bind (.addBelow ⟨hid, ?_⟩ ?_) fun child _ _ _ _ => ?_
  · rintro _ ⟨⟩
    exact hi.lt
  · refine .declare id (.inl (List.mem_singleton.mpr rfl)) hi.unused ?_ hone rfl rfl
    exact (hop.append (by decide)).append (oneLine_toString _)
  · exact Makes.edit (.settings i.attributes) trivial (.settings _ _) rfl

variable {S : InstructionId → Prop}

theorem makes_lift {nested : ComponentId} (hn : ws.isFile nested = false)
    (hdeclared : ws.NestedIn nested id) :
    Makes (Loads S) (lift id nested) ws := by
  refine .get fun _ => ?_
  split
  · next file hfile =>
    exact Makes.edit (.forward file) trivial
      (.forward hn (List.find?_some hfile) ⟨id, hdeclared, hfile⟩) rfl
  · exact .pure trivial

theorem oneLine_of_containerKind? (h : containerKind? i = some kind) (hi : i.OneLine) :
    kind.OneLine ∧ kind.Unsettled ∧ kind.isFile = false := by
  unfold containerKind? at h
  split at h <;> cases h
  · exact ⟨trivial, trivial, rfl⟩
  · exact ⟨trivial, trivial, rfl⟩
  · exact ⟨trivial, trivial, rfl⟩
  · exact ⟨hi.type, rfl, rfl⟩

theorem makes_refuse {P : Change.Class} {α : Type} (id : ComponentId) (op : String) :
    Makes P (refuse id op : Build α) ws :=
  Runs.component fun _ => .throw _

/-! ### Trees that are about to be read -/

/-- The trees are trees of `g`, and what stands below what in `g` still does. If the component is a function,
the trees stand below the instruction that it was made from. -/
structure Seated (ws : Workspace) (id : ComponentId) (g : Forest) (ts : List InstructionTree) : Prop where
  lists : ∀ {j i : InstructionId}, i ∈ (g.get j).children → ws.forest.Lists j i (g.get i).name
  tree : ∀ t ∈ ts, ∃ n i, t = g.treeWithin n i ∧
    ((∃ s, ws.kind id = .function s) → ∃ j, ws.FunctionFrom id j ∧ i ∈ (g.get j).children)

/-- What is about to be read below a component. -/
structure Ready (ws : Workspace) (id : ComponentId) (ts : List InstructionTree) : Prop where
  lt : id < ws.size
  fresh : ∀ node ∈ nodesAll ts, Fresh ws node
  nodup : (idsAll ts).Nodup
  seated : ∃ g, Seated ws id g ts

section Ready

variable {t : InstructionTree} {body ts : List InstructionTree} {ws' : Workspace}

theorem ids_node : (node source i body).ids = source :: idsAll body := by
  rw [ids, nodes, List.map_cons]
  rfl

theorem idsAll_cons : idsAll (t :: ts) = t.ids ++ idsAll ts := by
  rw [idsAll, nodesAll, List.map_append]
  rfl

/-- A tree of a forest is cut off or has the trees of its children below it. -/
theorem node_eq_treeWithin {n : Nat} {a : InstructionId} (h : node source i body = g.treeWithin n a) :
    source = a ∧ i = g.get a ∧ ∀ t ∈ body, ∃ m, ∃ c ∈ (g.get a).children, t = g.treeWithin m c := by
  cases n with
  | zero =>
    cases h
    exact ⟨rfl, rfl, fun _ ht => absurd ht List.not_mem_nil⟩
  | succ n =>
    cases h
    refine ⟨rfl, rfl, fun t ht => ?_⟩
    obtain ⟨c, hc, rfl⟩ := List.mem_map.mp ht
    exact ⟨n, c, hc, rfl⟩

theorem Seated.lists_after (h : Seated ws id g ts) (hs : ws.Sound) (hreach : Reach (Loads S) ws ws')
    {j i : InstructionId} (hi : i ∈ (g.get j).children) : ws'.forest.Lists j i (g.get i).name :=
  hreach.invariant (I := fun ws => ws.forest.Lists j i (g.get i).name) hs (h.lists hi)
    fun _ _ hs legal hc h => h.apply hs legal hc.steady

theorem Ready.tail (h : Ready ws id (t :: ts)) (hs : ws.Sound)
    (hreach : Reach (Loads (Usable ws.forest.size t.ids)) ws ws') : Ready ws' id ts := by
  have hids := h.nodup
  rw [idsAll_cons] at hids
  obtain ⟨-, hrest, hapart⟩ := List.nodup_append.mp hids
  obtain ⟨g, hseated⟩ := h.seated
  refine ⟨hreach.lt h.lt, fun node hnode => ?_, hrest, g, hseated.lists_after hs hreach, fun t ht => ?_⟩
  · refine (h.fresh node (List.mem_append_right _ hnode)).after hs (fun hmem => ?_) hreach
    exact hapart _ hmem _ (List.mem_map_of_mem hnode) rfl
  · obtain ⟨n, a, htree, hbelow⟩ := hseated.tree t (.tail _ ht)
    refine ⟨n, a, htree, ?_⟩
    rintro ⟨s, hkind⟩
    have hsort := hreach.describe_eq h.lt
    rw [← Workspace.kind, hkind] at hsort
    obtain ⟨j, hfrom, ha⟩ := hbelow (Kind.exists_of_describe hsort.symm)
    exact ⟨j, hreach.invariant (I := fun ws => ws.FunctionFrom id j) hs hfrom
      fun _ _ _ legal hc h => h.apply legal hc.steady, ha⟩

theorem Ready.inner (h : Ready ws id (node source i body :: ts)) (hs : ws.Sound)
    (hreach : Reach (Loads (Usable ws.forest.size [source])) ws ws')
    (hchild : Declared ws' id source i.name kind child) : Ready ws' child body := by
  have hids := h.nodup
  rw [idsAll_cons, ids_node] at hids
  obtain ⟨hnew, hbody⟩ := List.nodup_cons.mp (List.nodup_append.mp hids).1
  obtain ⟨g, hseated⟩ := h.seated
  refine ⟨hchild.lt, fun node hnode => ?_, hbody, g, hseated.lists_after hs hreach, fun t ht => ?_⟩
  · refine (h.fresh node (List.mem_append_left _ (.tail _ hnode))).after hs (fun hmem => ?_) hreach
    exact hnew (List.mem_singleton.mp hmem ▸ List.mem_map_of_mem hnode)
  · obtain ⟨n, a, htree, -⟩ := hseated.tree _ (.head _)
    obtain ⟨rfl, -, hbelow⟩ := node_eq_treeWithin htree
    obtain ⟨m, c, hc, rfl⟩ := hbelow t ht
    exact ⟨m, c, rfl, fun hkind => ⟨source, ⟨hkind, hchild.source⟩, hc⟩⟩

theorem Ready.nestedIn (h : Ready ws id (node source i body :: ts)) (hs : ws.Sound)
    (hreach : Reach (Loads S) ws ws') (hid : ∃ s, ws.kind id = .function s)
    (hchild : Declared ws' id source i.name kind child) (hkind : ∃ s, kind = .function s) :
    ws'.NestedIn child id := by
  obtain ⟨g, hseated⟩ := h.seated
  obtain ⟨n, a, htree, hbelow⟩ := hseated.tree _ (.head _)
  obtain ⟨rfl, rfl, -⟩ := node_eq_treeWithin htree
  obtain ⟨j, hfrom, hmem⟩ := hbelow hid
  refine ⟨source, j, _, ⟨by rwa [hchild.kind], hchild.source⟩, ?_, hseated.lists_after hs hreach hmem,
    hchild.parent⟩
  exact hreach.invariant (I := fun ws => ws.FunctionFrom id j) hs hfrom
    fun _ _ _ legal hc h => h.apply legal hc.steady

/-- A component with a body: its own instruction is used, then those of the body. -/
theorem makes_declareBody (hload : LoadsNew load) (h : Ready ws id (node source i body :: ts))
    (hone : kind.OneLine) (hopen : kind.Unsettled) (hfile : kind.isFile = false)
    (hbody : ∀ ws' child, Ready ws' child body →
      Makes (Loads (Usable ws'.forest.size (idsAll body))) (readTrees load child body) ws')
    (rest : ComponentId → Build Unit)
    (hrest : ∀ ws' child, ws'.isFile child = false →
      ((∃ s, ws.kind id = .function s) → (∃ s, kind = .function s) → ws'.NestedIn child id) →
      Makes (Loads (Usable ws.forest.size (source :: idsAll body))) (rest child) ws') :
    Makes (Loads (Usable ws.forest.size (source :: idsAll body)))
      (do
        let child ← declare load id source i kind
        readTrees load child body
        rest child) ws := by
  intro hs
  have hdeclare : Runs (Loads (Usable ws.forest.size (source :: idsAll body)))
      (declare load id source i kind) ws fun child ws' => Declared ws' id source i.name kind child ∧
        ws.forest.size ≤ ws'.forest.size ∧ Ready ws' child body ∧
        ((∃ s, ws.kind id = .function s) → (∃ s, kind = .function s) → ws'.NestedIn child id) := by
    refine .mono (.weaken (runs_declare hload h.lt (h.fresh _ (.head _)) hone hopen hfile) ?_)
      (Loads.mono (Usable.mono (by simp) le_rfl))
    intro child ws' _ hreach hchild
    exact ⟨hchild, hreach.extension.forest_le, h.inner hs hreach hchild,
      fun hid hkind => h.nestedIn hs hreach hid hchild hkind⟩
  refine Runs.bind hdeclare ?_ hs
  rintro child ws' hs' _ ⟨hchild, hle, hready, hdeclared⟩
  have hread := (hbody ws' child hready).mono
    (Loads.mono (Usable.mono (List.subset_cons_self source _) hle))
  refine Runs.bind hread fun _ ws'' _ hreach _ => hrest ws'' child ?_ fun hid hkind => ?_
  · rw [hreach.extension.isFile hready.lt]
    exact hchild.isFile hfile
  · exact hreach.invariant (I := fun ws => ws.NestedIn child id) hs' (hdeclared hid hkind)
      fun _ _ hs legal hc h => h.apply hs legal hc.steady

end Ready

mutual

/-- One step of reading: an instruction and those below it are used, and no others that were there
before. -/
theorem makes_readTree (hload : LoadsNew load) : ∀ (t : InstructionTree) {ts : List InstructionTree}
    {ws : Workspace} {id : ComponentId}, Ready ws id (t :: ts) →
      Makes (Loads (Usable ws.forest.size t.ids)) (readTree load id t) ws
  | .node source i body, ts, ws, id, h => by
    rw [ids_node]
    have hsource : Fresh ws (source, i) := h.fresh _ (.head _)
    have hbody : ∀ ws' child, Ready ws' child body →
        Makes (Loads (Usable ws'.forest.size (idsAll body))) (readTrees load child body) ws' :=
      fun ws' child hready => makes_readTrees hload body hready
    -- what uses only the instruction at the root
    have hown : ∀ {m : Build Unit}, Makes (Loads (Usable ws.forest.size [source])) m ws →
        Makes (Loads (Usable ws.forest.size (source :: idsAll body))) m ws :=
      fun h => .mono h (Loads.mono (Usable.mono (by simp) le_rfl))
    have hmember : Makes (Loads (Usable ws.forest.size (source :: idsAll body)))
        (discard (declareMember load id source i false)) ws :=
      hown (Makes.discard (runs_declareMember hload h.lt hsource false).makes)
    have hplain : Makes (Loads (Usable ws.forest.size (source :: idsAll body)))
        (if i.op = "declare" then discard (declareMember load id source i false)
          else refuse id i.op) ws := by
      split
      · exact hmember
      · exact makes_refuse id i.op
    have hcontainer : Makes (Loads (Usable ws.forest.size (source :: idsAll body)))
        (match containerKind? i with
          | some kind => do
            let child ← declare load id source i kind
            readTrees load child body
          | none =>
            if i.op = "declare" then discard (declareMember load id source i false)
            else refuse id i.op) ws := by
      split
      · next kind hkind =>
        obtain ⟨hone, hopen, hfile⟩ := oneLine_of_containerKind? hkind hsource.one
        have h := makes_declareBody hload h hone hopen hfile hbody (fun _ => pure ())
          fun _ _ _ _ => .pure trivial
        simpa using h
      · exact hplain
    rw [readTree]
    refine .component fun _ => ?_
    split
    · exact hcontainer
    · exact hcontainer
    · exact hcontainer
    · exact hplain
    · next s hkind =>
      split
      · next action haction => exact hown (makes_addOperation h.lt hsource haction)
      · split
        · exact hown (makes_declareParam hload h.lt hsource)
        · split
          · exact hmember
          · split
            · refine makes_declareBody hload h ?_ ?_ rfl hbody _ ?_
              · exact hsource.one.type
              · rfl
              · exact fun ws' nested hn hdeclared => makes_lift hn (hdeclared ⟨s, hkind⟩ ⟨_, rfl⟩)
            · exact makes_refuse id i.op
    · exact makes_refuse id i.op
    · exact makes_refuse id i.op

/-- **Reading trees uses their instructions and no others that were there before.** -/
theorem makes_readTrees (hload : LoadsNew load) : ∀ (ts : List InstructionTree) {ws : Workspace}
    {id : ComponentId}, Ready ws id ts →
      Makes (Loads (Usable ws.forest.size (idsAll ts))) (readTrees load id ts) ws
  | [], ws, id, _ => by
    rw [readTrees]
    exact Runs.pure trivial
  | t :: ts, ws, id, h => by
    rw [idsAll_cons]
    intro hs
    have htree : Runs (Loads (Usable ws.forest.size (t.ids ++ idsAll ts))) (readTree load id t) ws
        fun _ ws' => ws.forest.size ≤ ws'.forest.size ∧ Ready ws' id ts := by
      refine Runs.mono (Runs.weaken (makes_readTree hload t h) ?_)
        (Loads.mono (Usable.mono (List.subset_append_left _ _) (Nat.le_refl _)))
      exact fun _ ws' _ hreach _ => ⟨hreach.extension.forest_le, h.tail hs hreach⟩
    rw [readTrees]
    refine Runs.bind htree ?_ hs
    rintro _ ws' _ _ ⟨hle, hready⟩
    exact (makes_readTrees hload ts hready).mono
      (Loads.mono (Usable.mono (List.subset_append_right _ _) hle))

end

/-! ### Loading -/

theorem reach_grown (h : ws.forest.Grown g) : Reach (Loads S) ws { ws with forest := g } := by
  induction h with
  | refl => exact .refl _ ws
  | add _ hi hone ih => exact ih.trans (.single (.plant _) hi (.plant hone))
  | @addChild _ parent _ _ _ hp hi hone ih =>
    exact ih.trans (.single (.plantBelow parent _) ⟨hp, hi⟩ (.plantBelow parent hone))

theorem addSource?_eq_read (language : Language) (source : String) (ws : Workspace) :
    addSource? language source ws = .ok (language.read source ws.forest).2
      { ws with forest := (language.read source ws.forest).1 } := by
  cases language <;> rfl

theorem runs_addSource? (language : Language) (source : String) :
    Runs (Loads S) (addSource? language source) ws fun root? ws' =>
      ∃ g, ws.forest.Grown g ∧ ws' = { ws with forest := g } ∧
        ∀ root, root? = some root → root = ws.forest.size ∧ root < g.size := by
  intro _
  obtain ⟨hgrown, hroot⟩ := language.read_spec source ws.forest
  rw [addSource?_eq_read]
  exact ⟨reach_grown hgrown, _, hgrown, rfl, hroot⟩

theorem nodes_tree (f : Forest) (id : InstructionId) :
    (f.tree id).nodes = (id, f.get id) :: nodesAll (f.body id) := by
  rw [Forest.body, Forest.tree]
  cases f.size <;> rw [Forest.treeWithin, nodes]

/-- What stands below the root of a source that was just added is fresh, and comes once. -/
theorem fresh_of_grown (hs : ws.Sound) (hgrown : ws.forest.Grown g) (hroot : ws.forest.size < g.size) :
    (∀ node ∈ nodesAll (g.body ws.forest.size),
      Fresh { ws with forest := g } node ∧ ws.forest.size < node.1) ∧
    (idsAll (g.body ws.forest.size)).Nodup := by
  have hg := hgrown.sound hs.forest
  have hnodup := hg.nodup_ids g.size ws.forest.size
  rw [show g.treeWithin g.size ws.forest.size = g.tree ws.forest.size from rfl,
    ids, nodes_tree, List.map_cons, List.nodup_cons] at hnodup
  refine ⟨fun node hnode => ?_, hnodup.2⟩
  have htree : (node.1, node.2) ∈ (g.treeWithin g.size ws.forest.size).nodes := by
    rw [show g.treeWithin g.size ws.forest.size = g.tree ws.forest.size from rfl, nodes_tree]
    exact .tail _ hnode
  obtain ⟨hunder, hget⟩ := Forest.mem_nodes_treeWithin htree
  have hle := hunder.le hg
  have hlt := hunder.lt_size hg hroot
  refine ⟨⟨hlt, fun id hid => ?_, hget ▸ hgrown.oneLine hle hlt⟩, Nat.lt_of_le_of_ne hle ?_⟩
  · exact Nat.not_lt_of_le hle (hs.instruction_lt hid)
  · intro heq
    have hmem := List.mem_map_of_mem (f := Prod.fst) hnode
    rw [← heq] at hmem
    exact hnodup.1 hmem

/-- What is read below a file are trees of the forest as it is. -/
theorem seated_body (hfile : ws.isFile id = true) (root : InstructionId) :
    Seated ws id ws.forest (ws.forest.body root) := by
  refine ⟨fun hi => ⟨hi, .inl rfl⟩, fun t ht => ?_⟩
  rw [Forest.body] at ht
  cases htree : ws.forest.tree root with
  | node a i body =>
    rw [htree] at ht
    obtain ⟨-, -, hbelow⟩ := node_eq_treeWithin htree.symm
    obtain ⟨m, c, -, rfl⟩ := hbelow t ht
    refine ⟨m, c, rfl, ?_⟩
    rintro ⟨s, hs⟩
    rw [Workspace.isFile, hs] at hfile
    cases hfile

theorem makes_contents (hs : ws.Sound) (hload : LoadsNew load) (hid : id < ws.size)
    (hfile : ws.isFile id = true) (hlt : ws.forest.size < g.size)
    (hfresh : ∀ node ∈ nodesAll (g.body ws.forest.size),
      Fresh { ws with forest := g } node)
    {language : Language} (hreadable : ws.Readable id language)
    (hlater : ∀ node ∈ nodesAll (g.body ws.forest.size), ws.forest.size < node.1)
    (hnodup : (idsAll (g.body ws.forest.size)).Nodup) :
    Makes (Loads (Usable ws.forest.size []))
      (do
        update id fun c => { c with instruction? := some ws.forest.size }
        updateFile id fun f => { f with language? := some language }
        readTrees load id ((← get).forest.body ws.forest.size)) { ws with forest := g } := by
  intro hs'
  -- the root is the only instruction that is used before the contents
  have hroot : ∀ i, Usable g.size [ws.forest.size] i → Usable ws.forest.size [] i := by
    rintro i (hi | hi)
    · exact .inr (le_of_eq (List.mem_singleton.mp hi).symm)
    · exact .inr (le_trans (le_of_lt hlt) hi)
  have hmark : Runs (Loads (Usable g.size [ws.forest.size]))
      (do
        update id fun c => { c with instruction? := some ws.forest.size }
        updateFile id fun f => { f with language? := some language }) { ws with forest := g }
      fun _ ws' => ws'.forest = g := by
    refine .bind (R := fun _ ws' => ws'.forest = g ∧ ws'.Readable id language)
      (.change (.edit id (.source ws.forest.size)) rfl hlt ?_ ⟨rfl, fun f hf => ?_⟩) ?_
    · refine .source (.inl (List.mem_singleton.mpr rfl)) (fun x hx => ?_) hfile
      exact lt_irrefl _ (hs.instruction_lt hx)
    · refine hreadable f (Eq.trans ?_ hf)
      exact (Workspace.modify_keeps { ws with forest := g } id
        (g := (Edit.source ws.forest.size).apply) Component.file? (fun _ => rfl) id).symm
    · rintro _ ws' _ _ ⟨hforest, hreadable'⟩
      exact .change (.edit id (.file (.language language))) rfl trivial (.language hreadable')
        hforest
  rw [← bind_assoc]
  refine Runs.bind (R := fun _ ws' => ws'.forest = g ∧ Ready ws' id (g.body ws.forest.size))
    ((hmark.weaken fun _ ws' _ hreach hforest => ?_).mono (Loads.mono hroot)) ?_ hs'
  · have hseated := seated_body ((hreach.extension.isFile hid).trans hfile) ws.forest.size
    rw [hforest] at hseated
    refine ⟨hforest, hreach.lt hid, fun node hnode => ?_, hnodup, g, hseated⟩
    refine (hfresh node hnode).after hs' (fun hmem => ?_) hreach
    exact Nat.ne_of_gt (hlater node hnode) (List.mem_singleton.mp hmem)
  · rintro _ ws' - hreach ⟨hforest, hready⟩
    refine .get fun _ => ?_
    rw [hforest]
    refine (makes_readTrees hload _ hready).mono (Loads.mono ?_)
    rintro i (hi | hi)
    · obtain ⟨node, hnode, rfl⟩ := List.mem_map.mp hi
      exact .inr (le_of_lt (hlater node hnode))
    · exact .inr (le_trans (le_trans (le_of_lt hlt) hreach.extension.forest_le) hi)

/-- A source is opened once its file is marked as loaded, which happens once. -/
theorem makes_readSource (hload : LoadsNew load) (hid : id < ws.size) (hfile : ws.isFile id = true)
    (hloaded : (Event.opened id).Marked ws) (hnew : .opened id ∉ ws.journal) {path : Path}
    (hpath : ∀ f, (ws.component id).file? = some f → f.path = path) :
    Makes (Loads (Usable ws.forest.size [])) (readSource load id path) ws := by
  unfold readSource
  split
  · exact .throw _
  · next language hlanguage =>
    refine .bind Runs.needReader ?_
    rintro _ _ _ - rfl
    refine .bind (Makes.change (.record (.opened id)) rfl ⟨hloaded, hnew⟩ (.opened id)).given ?_
    rintro _ _ - - ⟨heq, -⟩
    cases heq
    refine .bind Runs.ask ?_
    rintro source _ hs - ⟨rfl, hsource⟩
    refine .bind (runs_addSource? language source) ?_
    rintro root? _ - - ⟨g, hgrown, rfl, hroot⟩
    cases root? with
    | none => exact .throw _
    | some root =>
      obtain ⟨rfl, hlt⟩ := hroot root rfl
      obtain ⟨hnodes, hnodup⟩ := fresh_of_grown hs hgrown hlt
      exact makes_contents hs hload hid hfile hlt
        (fun node hnode => (hnodes node hnode).1)
        (fun f hf => by rw [hpath f hf]; exact ⟨hlanguage, source, hsource⟩)
        (fun node hnode => (hnodes node hnode).2) hnodup

/-- **A file is loaded with instructions that it adds itself.** -/
theorem LoadsNew.loadWith (hload : LoadsNew load) : LoadsNew (Build.loadWith load) := by
  intro ws id hid
  refine .component fun _ => ?_
  split
  · exact .pure trivial
  · next file hfile =>
    have hisFile : ws.isFile id = true := by
      rw [Workspace.isFile, Kind.isFile, Workspace.kind]
      exact Option.isSome_of_eq_some hfile
    split
    · exact .pure trivial
    · next hunloaded =>
      refine .of_sound fun hs => ?_
      -- what was opened is loaded, so the source of this file was not
      have hnew : Event.opened id ∉ ws.journal := by
        intro hmem
        have hmarked := hs.journal.marked _ hmem
        rw [Event.Marked, hfile] at hmarked
        exact hunloaded hmarked
      refine .bind (Makes.editFile .loaded (.loaded id) rfl).given ?_
      rintro _ ws' - hreach ⟨heq, -⟩
      cases heq
      split
      · exact .pure trivial
      · refine (makes_readSource hload (hreach.lt hid) ?_ ?_ hnew ?_).mono
          (Loads.mono (Usable.mono (List.nil_subset _) hreach.extension.forest_le))
        · rw [hreach.extension.isFile hid]
          exact hisFile
        · have hkind : (ws.component id).kind.file? = some file := hfile
          simp [Event.Marked, Workspace.component_modify_eq, hid, Component.file?, hkind,
            FileEdit.apply]
        · have hkind : (ws.component id).kind.file? = some file := hfile
          intro f hf
          simp only [Workspace.component_modify_eq, hid, and_self, if_true, Component.file?,
            Kind.file?_mapFile, hkind, Option.map_some, Option.some.injEq] at hf
          rw [← hf]
          rfl

theorem loadsNew_loadWithin (depth : Nat) : LoadsNew (loadWithin depth) := by
  induction depth with
  | zero => exact LoadsNew.loadWith fun _ _ _ => .pure trivial
  | succ depth ih => exact LoadsNew.loadWith ih

theorem loadsNew_load : LoadsNew Build.load :=
  fun ws id hid => .get fun _ => loadsNew_loadWithin ws.unloaded ws id hid

/-- **What loading does**, of all instructions. -/
theorem makes_load (hid : id < ws.size) :
    Makes (Loads fun _ => True) (Build.load id) ws :=
  (loadsNew_load ws id hid).mono (Loads.mono fun _ _ => trivial)

end Contents

end Build

end LightHeaders
