import LightHeaders.Proofs.TwinLoads

set_option autoImplicit false

/-! # Loading stays in its file

A file whose source declares no dotted name is loaded without a trace anywhere else. Its source is read
into instructions behind those that are there (`Language.get_read`). Each of them becomes a component
below the file or below one that was just made (`Build.Confined`). So whatever instruction stops the
load, all other components and all other instructions are what they were, and what is new is in the file
(`History.load_local`).

`Workspace.opening` is the workspace in which the components of a file begin to be made.
-/

namespace LightHeaders

open Text Workspace Change Forest

/-! ## Reading a source -/

variable {root id : InstructionId} {ws : Workspace} {g : ComponentId}

/-- **A source is read behind what is there.** -/
theorem Language.get_read (language : Language) (source : String) (f : Forest) (hid : id < f.size) :
    (language.read source f).1.get id = f.get id := ((language.read_spec source f).1.get hid).2

/-! ## Before the first component is made -/

namespace Workspace

/-- The workspace with the instructions of a source of `g` behind those that are there. -/
def reading (s : Workspace) (g : ComponentId) (language : Language) (source : String) : Workspace :=
  { (Change.record (.opened g)).apply s with forest := (language.read source s.forest).1 }

/-- The workspace in which the components of a file begin to be made: the file is marked, and its source
has been read. -/
def opening (ws : Workspace) (g : ComponentId) (language : Language) (source : String) : Workspace :=
  (Change.edit g (.file (.language language))).apply ((Change.edit g (.source ws.forest.size)).apply
    (((Change.edit g (.file .loaded)).apply ws).reading g language source))

end Workspace

theorem Change.component_edit (hg : g < ws.size) (e : Edit) :
    ((Change.edit g e).apply ws).component g = e.apply (ws.component g) := by
  rw [apply, component_modify_eq, if_pos ⟨rfl, hg⟩]

theorem Change.component_edit_of_ne {x : ComponentId} (hx : x ≠ g) (e : Edit) :
    ((Change.edit g e).apply ws).component x = ws.component x := by
  rw [apply, component_modify_eq, if_neg fun h => hx h.1]

namespace Build

variable {ws : Workspace} {g : ComponentId} {file : SourceFile}

theorem needReader_eq (language : Language) (ws : Workspace) : needReader language ws =
    if ws.readers.contains language then .ok () ws else .error (.noReader language) ws := by
  unfold needReader
  rw [bind_get]
  cases ws.readers.contains language <;> rfl

/-- A file that has to be loaded is marked, and then its source is read, if it has one. -/
theorem load_of_unloaded (hfile : (ws.component g).file? = some file) (hloaded : file.loaded = false) :
    ∃ load, Build.load g ws = (if file.isDirectory then pure () else readSource load g file.path :
      Build Unit) ((Change.edit g (.file .loaded)).apply ws) :=
  ⟨_, (congrFun (loadWithin_eq ws.unloaded g) ws).trans (loadWith_of_file? hfile hloaded)⟩

variable {language : Language}

variable {source : String} {load : ComponentId → Build Unit}

/-- Reading a source that is there: its instructions come behind those that are there, and then, unless
it is malformed, their components are made. -/
theorem readSource_of_text (load : ComponentId → Build Unit) (g : ComponentId) {s : Workspace} {path : Path}
    (hlanguage : Language.ofPath? path = some language) (hreader : s.readers.contains language = true)
    (hsource : s.disk.readText path = .ok source) :
    ((language.read source s.forest).2 = none → readSource load g path s =
      .error (.malformedSource path) (s.reading g language source)) ∧
    ∀ root, (language.read source s.forest).2 = some root → readSource load g path s =
      readTrees load g ((language.read source s.forest).1.body root)
        ((Change.edit g (.file (.language language))).apply ((Change.edit g (.source root)).apply
          (s.reading g language source))) := by
  have hneed : needReader language s = .ok () s := by rw [needReader_eq, if_pos hreader]
  have hrecord : record (.opened g) s = .ok () ((Change.record (.opened g)).apply s) := rfl
  have hask : ask (·.readText path) (.unusable path) ((Change.record (.opened g)).apply s) =
      .ok source ((Change.record (.opened g)).apply s) := ask_of_ok hsource
  have hadd : addSource? language source ((Change.record (.opened g)).apply s) =
      .ok (language.read source s.forest).2 (s.reading g language source) :=
    addSource?_eq_read language source _
  unfold readSource
  simp only [hlanguage]
  rw [bind_of_ok hneed, bind_of_ok hrecord, bind_of_ok hask, bind_of_ok hadd]
  refine ⟨fun hnone => ?_, fun root hroot => ?_⟩
  · rw [hnone]
    rfl
  · rw [hroot]
    rfl

/-! ## Making the components -/

/-- The changes that making the components of `g` consists of, from `ws` on: a new component comes below
`g` or below another new one, and only new components are edited. -/
inductive Confined (ws : Workspace) (g : ComponentId) : Change.Class
  | below {s : Workspace} {p : ComponentId} {name : String} {kind : Kind} {i : InstructionId}
      (own : p = g ∨ ws.size ≤ p) (noFile : kind.isFile = false) (later : ws.forest.size ≤ i) :
      Confined ws g s (.below p name kind (some i))
  | edit {s : Workspace} {x : ComponentId} {e : Edit} (new : ws.size ≤ x) (keeps : ∀ i, e ≠ .source i) :
      Confined ws g s (.edit x e)

/-- A component of `g` that instructions can be read into. -/
structure Within (ws : Workspace) (g : ComponentId) (s : Workspace) (id : ComponentId) : Prop where
  lt : id < s.size
  own : id = g ∨ ws.size ≤ id
  size_le : ws.size ≤ s.size
  there : g < s.size
  file : s.isFile g = true

variable {s u : Workspace} {id : ComponentId}

theorem Within.after (h : Within ws g s id) (hreach : Reach (Confined ws g) s u) : Within ws g u id where
  lt := hreach.lt h.lt
  own := h.own
  size_le := le_trans h.size_le hreach.extension.size_le
  there := hreach.lt h.there
  file := (hreach.extension.isFile h.there).trans h.file

theorem Within.new (h : Within ws g s id) (hreach : Reach (Confined ws g) s u) (hlt : s.size < u.size) :
    Within ws g u s.size :=
  { h.after hreach with lt := hlt, own := .inr h.size_le }

/-- A function is not the file itself. -/
theorem Within.size_le_of_function (h : Within ws g s id) {f : Signature}
    (hkind : (s.component id).kind = .function f) : ws.size ≤ id := by
  rcases h.own with rfl | hle
  · have hfile := h.file
    rw [isFile, kind, hkind] at hfile
    cases hfile
  · exact hle

/-- An instruction that can be read: it is new and declares no dotted name. -/
structure Readable (ws s : Workspace) (node : InstructionId × Instruction) : Prop where
  later : ws.forest.size ≤ node.1
  lt : node.1 < s.forest.size
  undotted : node.2.Undotted

theorem Readable.after {node : InstructionId × Instruction} (h : Readable ws s node)
    (hreach : Reach (Confined ws g) s u) : Readable ws u node :=
  ⟨h.later, lt_of_lt_of_le h.lt hreach.extension.forest_le, h.undotted⟩

theorem reach_made (h : Within ws g s id) {source : InstructionId} (hlater : ws.forest.size ≤ source)
    (hlt : source < s.forest.size) (name : String) {kind : Kind} (hkind : kind.isFile = false)
    (more : List (String × String)) :
    Reach (Confined ws g) s ((Change.edit s.size (.settings more)).apply
      ((Change.below id name kind (some source)).apply s)) := by
  have hbelow := Reach.single (P := Confined ws g) (.below id name kind (some source))
    ⟨h.lt, fun i hi => Option.some.inj hi ▸ hlt⟩ (.below h.own hkind hlater)
  exact hbelow.trans (.single (.edit s.size (.settings more)) trivial
    (.edit h.size_le fun _ => Edit.noConfusion))

section

variable {load : ComponentId → Build Unit} {source : InstructionId} {i : Instruction}

theorem confined_declare (h : Within ws g s id) (hi : Readable ws s (source, i)) (hdot : '.' ∉ i.name.toList)
    {kind : Kind} (hkind : kind.isFile = false) :
    Runs (Confined ws g) (declare load id source i kind) s fun child u =>
      child = s.size ∧ Within ws g u s.size := by
  intro _
  have hreach := reach_made h hi.later hi.lt i.name hkind i.attributes
  rw [declare_eq hdot]
  refine ⟨hreach, rfl, h.new hreach ?_⟩
  simp only [Change.apply, Workspace.size_modify, Workspace.size_add]
  exact Nat.lt_succ_self _

theorem confined_declareMember (h : Within ws g s id) (hi : Readable ws s (source, i))
    (hdeclares : i.declares = true) (isParam : Bool) :
    Runs (Confined ws g) (declareMember load id source i isParam) s fun child u =>
      child = s.size ∧ Within ws g u s.size := by
  unfold declareMember
  split
  · exact .throw _
  · exact confined_declare h hi (hi.undotted hdeclares) rfl

theorem confined_declareParam (h : Within ws g s id) (hi : Readable ws s (source, i))
    (hdeclares : i.declares = true) {f : Signature} (hkind : (s.component id).kind = .function f) :
    Makes (Confined ws g) (declareParam load id source i) s := by
  refine .bind (confined_declareMember h hi hdeclares true) ?_
  rintro _ u - - ⟨rfl, -⟩
  exact Makes.edit (.param s.size) trivial (.edit (h.size_le_of_function hkind) fun _ => Edit.noConfusion)
    rfl

theorem confined_addOperation (h : Within ws g s id) (hi : Readable ws s (source, i)) (action : Action) :
    Makes (Confined ws g) (addOperation id source i action) s := by
  intro _
  rw [addOperation_eq]
  exact ⟨reach_made h hi.later hi.lt _ rfl i.attributes, trivial⟩

theorem confined_lift {nested : ComponentId} (h : ws.size ≤ nested) :
    Makes (Confined ws g) (lift id nested) s := by
  intro _
  obtain ⟨u, hlift, rfl | ⟨file, rfl⟩⟩ := lift_eq s id nested
  · rw [hlift]
    exact ⟨.refl _ _, trivial⟩
  · rw [hlift]
    exact ⟨.single (.edit nested (.forward file)) trivial (.edit h fun _ => Edit.noConfusion), trivial⟩

theorem confined_refuse (op : String) : Makes (Confined ws g) (refuse id op : Build Unit) s :=
  Runs.component fun _ => .throw _

end

mutual

theorem confined_readTree : ∀ (t : InstructionTree) {s : Workspace}
    {id : ComponentId}, Within ws g s id → (∀ node ∈ t.nodes, Readable ws s node) →
      Makes (Confined ws g) (readTree load id t) s
  | .node source i body, s, id, h, hnodes => by
    have hi := hnodes (source, i) (.head _)
    have hbody : ∀ u, Reach (Confined ws g) s u → Within ws g u s.size →
        Makes (Confined ws g) (readTrees load s.size body) u := fun u hreach hnew =>
      confined_readTrees body hnew fun node hnode =>
        (hnodes node (.tail _ hnode)).after hreach
    have hmember : i.op = "declare" →
        Makes (Confined ws g) (discard (declareMember load id source i false)) s := fun hop =>
      Makes.discard (confined_declareMember h hi (by rw [Instruction.declares, hop]; rfl) false).makes
    rw [readTree]
    refine .component fun _ => ?_
    split
    iterate 3
      · split
        · next kind hkind =>
          refine .bind (confined_declare h hi (hi.undotted (declares_of_containerKind? hkind))
            (isFile_of_containerKind? hkind)) ?_
          rintro _ u - hreach ⟨rfl, hnew⟩
          exact hbody u hreach hnew
        · exact .ite hmember fun _ => confined_refuse i.op
    · exact .ite hmember fun _ => confined_refuse i.op
    · next f hkind =>
      split
      · exact confined_addOperation h hi _
      · refine .ite (fun hop => ?_) fun _ => .ite hmember fun _ => .ite (fun hop => ?_)
          fun _ => confined_refuse i.op
        · exact confined_declareParam h hi (by rw [Instruction.declares, hop]; rfl) hkind
        · have hdot := hi.undotted (by rw [Instruction.declares, hop]; rfl)
          refine .bind (confined_declare h hi hdot rfl) ?_
          rintro _ u - hreach ⟨rfl, hnew⟩
          exact .bind (hbody u hreach hnew) fun _ _ _ _ _ => confined_lift h.size_le
    · exact confined_refuse i.op
    · exact confined_refuse i.op

/-- **Reading instructions into a file is confined to the file.** -/
theorem confined_readTrees : ∀ (ts : List InstructionTree) {s : Workspace}
    {id : ComponentId}, Within ws g s id → (∀ node ∈ InstructionTree.nodesAll ts, Readable ws s node) →
      Makes (Confined ws g) (readTrees load id ts) s
  | [], s, id, _, _ => by
    rw [readTrees]
    exact .pure trivial
  | t :: ts, s, id, h, hnodes => by
    rw [readTrees]
    refine .bind (confined_readTree t h fun node hnode => hnodes node (List.mem_append_left _ hnode))
      fun _ u _ hreach _ => ?_
    exact confined_readTrees ts (h.after hreach) fun node hnode =>
      (hnodes node (List.mem_append_right _ hnode)).after hreach

end

/-- Confined changes keep to the file, and to the instructions as they are. -/
theorem loading_of_confined (hs : s.Sound) (hg : g < ws.size) (h : ws.Loading g s)
    (hroot : (s.component g).instruction? = some ws.forest.size) (hreach : Reach (Confined ws g) s u) :
    ws.Loading g u ∧ u.forest = s.forest := by
  have hinv : ws.Loading g u ∧ (u.component g).instruction? = some ws.forest.size ∧
      u.forest = s.forest := by
    refine hreach.invariant
      (I := fun u => ws.Loading g u ∧ (u.component g).instruction? = some ws.forest.size ∧
        u.forest = s.forest) hs ⟨h, hroot, rfl⟩ ?_
    rintro v c - hlegal hc ⟨hloading, hrooted, hforest⟩
    cases hc with
    | @below _ p name kind i own noFile later =>
      refine ⟨hloading.below hg own hlegal.1 hrooted name noFile later, ?_, hforest⟩
      rw [component_below hlegal.1, if_neg (ne_of_lt (lt_of_lt_of_le hg hloading.size_le))]
      split
      · next hp =>
        rw [hp] at hrooted
        exact hrooted
      · exact hrooted
    | @edit _ x e new keeps =>
      refine ⟨hloading.edit (.inr new) e fun i hi => absurd hi (keeps i), ?_, hforest⟩
      have hne : g ≠ x := ne_of_lt (lt_of_lt_of_le hg new)
      rw [component_edit_of_ne hne]
      exact hrooted
  exact ⟨hinv.1, hinv.2.2⟩

/-! ## Loading -/

/-- Where reading the source of a file stops: at once, with the opening of the source, or later, which
takes a text that a reader is there for. -/
theorem readSource_cases (load : ComponentId → Build Unit) (g : ComponentId) (path : Path) (s : Workspace) :
    (readSource load g path).after s = s ∨
    (readSource load g path).after s = (Change.record (.opened g)).apply s ∨
    ∃ language source, Language.ofPath? path = some language ∧ s.readers.contains language = true ∧
      s.disk.readText path = .ok source := by
  cases hlanguage : Language.ofPath? path with
  | none =>
    left
    unfold readSource after
    simp only [hlanguage]
    rfl
  | some language =>
    cases hreader : s.readers.contains language with
    | false =>
      left
      have hneed : needReader language s = .error (.noReader language) s := by
        rw [needReader_eq, if_neg (by rw [hreader]; exact Bool.false_ne_true)]
      unfold readSource after
      simp only [hlanguage]
      rw [bind_of_error hneed]
    | true =>
      cases hsource : s.disk.readText path with
      | ok source => exact .inr (.inr ⟨language, source, rfl, hreader, rfl⟩)
      | error fault =>
        right; left
        have hneed : needReader language s = .ok () s := by rw [needReader_eq, if_pos hreader]
        have hrecord : record (.opened g) s = .ok () ((Change.record (.opened g)).apply s) := rfl
        have hask : ask (·.readText path) (.unusable path) ((Change.record (.opened g)).apply s) =
            .error (.unusable path fault) ((Change.record (.opened g)).apply s) := ask_of_error hsource
        unfold readSource after
        simp only [hlanguage]
        rw [bind_of_ok hneed, bind_of_ok hrecord, bind_of_error hask]

theorem sound_opening (hs : ws.Sound) (hfile : (ws.component g).file? = some file)
    (hloaded : file.loaded = false) (hg : g < ws.size)
    (hroot : (language.read source ws.forest).2 = some ws.forest.size) :
    (ws.opening g language source).Sound := by
  obtain ⟨hgrown, hlt⟩ := language.read_spec source ws.forest
  have hmarked := hs.apply (.edit g (.file .loaded)) trivial
  have hmark : (Event.opened g).Marked ((Change.edit g (.file .loaded)).apply ws) := by
    rw [Event.Marked, component_edit hg]
    show ((ws.component g).kind.mapFile _).file?.any _ = true
    rw [Kind.file?_mapFile, show (ws.component g).kind.file? = some file from hfile]
    rfl
  -- a source that was opened before would be the source of a loaded file
  have hnew : Event.opened g ∉ ws.journal := fun hmem => by
    have hbefore : (ws.component g).file?.any SourceFile.loaded = true := hs.journal.marked _ hmem
    rw [hfile, Option.any_some, hloaded] at hbefore
    cases hbefore
  have hrecorded := hmarked.apply (.record (.opened g)) ⟨hmark, hnew⟩
  have hplanted : Reach (Loads fun _ => True)
      ((Change.record (.opened g)).apply ((Change.edit g (.file .loaded)).apply ws))
      (((Change.edit g (.file .loaded)).apply ws).reading g language source) := reach_grown hgrown
  have hsource := (hplanted.sound hrecorded).apply (.edit g (.source ws.forest.size)) (hlt _ hroot).2
  exact hsource.apply (.edit g (.file (.language language))) trivial

theorem loading_reading (ws : Workspace) (g : ComponentId) (language : Language) (source : String) :
    ws.Loading g (((Change.edit g (.file .loaded)).apply ws).reading g language source) :=
  (Workspace.Loading.start ws g).of_components rfl rfl rfl

theorem loading_opening (hg : g < ws.size) (language : Language) (source : String) :
    ws.Loading g (ws.opening g language source) := by
  have hsource := (loading_reading ws g language source).edit (.inl rfl) (.source ws.forest.size)
    fun i hi => ⟨hg, (Edit.source.inj hi).symm⟩
  exact hsource.edit (.inl rfl) (.file (.language language)) fun _ => Edit.noConfusion

theorem size_opening (ws : Workspace) (g : ComponentId) (language : Language) (source : String) :
    (ws.opening g language source).size = ws.size := by
  have hread : (((Change.edit g (.file .loaded)).apply ws).reading g language source).size =
      ((Change.edit g (.file .loaded)).apply ws).size := rfl
  rw [Workspace.opening, Change.apply, Workspace.size_modify, Change.apply, Workspace.size_modify, hread,
    Change.apply, Workspace.size_modify]

theorem component_opening (hg : g < ws.size) (language : Language) (source : String) :
    (ws.opening g language source).component g = (Edit.file (.language language)).apply
      ((Edit.source ws.forest.size).apply ((Edit.file .loaded).apply (ws.component g))) := by
  have hread : g < (((Change.edit g (.file .loaded)).apply ws).reading g language source).size :=
    lt_of_lt_of_le hg (loading_reading ws g language source).size_le
  have hmarked : (((Change.edit g (.file .loaded)).apply ws).reading g language source).component g =
      ((Change.edit g (.file .loaded)).apply ws).component g := rfl
  rw [Workspace.opening, component_edit, component_edit hread, hmarked,
    component_edit hg]
  rw [Change.apply, Workspace.size_modify]
  exact hread

/-- What stands in the body of a source can be read into its file, if it declares no dotted name. -/
theorem readable_of_undotted (hs : ws.Sound)
    (hroot : (language.read source ws.forest).2 = some ws.forest.size)
    (hundotted : ∀ node ∈ InstructionTree.nodesAll ((language.read source ws.forest).1.body ws.forest.size),
      node.2.Undotted) :
    ∀ node ∈ InstructionTree.nodesAll ((language.read source ws.forest).1.body ws.forest.size),
      Readable ws (ws.opening g language source) node := by
  intro node hnode
  obtain ⟨hgrown, hspec⟩ := language.read_spec source ws.forest
  obtain ⟨hfresh, hlater⟩ := (fresh_of_grown hs hgrown (hspec _ hroot).2).1 node hnode
  exact ⟨le_of_lt hlater, hfresh.lt, hundotted node hnode⟩

theorem undotted_of_source (hs : ws.Sound) (h : ∀ i ∈ (language.read source {}).1.nodes.toList, i.Undotted) :
    ∀ node ∈ InstructionTree.nodesAll ((language.read source ws.forest).1.body ws.forest.size),
      node.2.Undotted := by
  intro node hnode
  have hgrown := (language.read_spec source ws.forest).1
  obtain ⟨hle, hget⟩ := mem_nodesAll_body (hgrown.sound hs.forest) hnode
  rw [hget]
  exact undotted_read h ws.forest hle

theorem within_opening (hfile : (ws.component g).file? = some file) (hg : g < ws.size) (language : Language)
    (source : String) : Within ws g (ws.opening g language source) g where
  lt := lt_of_lt_of_le hg (loading_opening hg language source).size_le
  own := .inl rfl
  size_le := (loading_opening hg language source).size_le
  there := lt_of_lt_of_le hg (loading_opening hg language source).size_le
  file := by
    have hkept : ∀ (s : Workspace) (e : Edit), ((Change.edit g e).apply s).isFile g = s.isFile g :=
      fun s e => s.modify_keeps g (fun c => c.kind.isFile) e.apply_isFile g
    have hmarked : (((Change.edit g (.file .loaded)).apply ws).reading g language source).isFile g =
        ((Change.edit g (.file .loaded)).apply ws).isFile g := rfl
    rw [opening, hkept, hkept, hmarked, hkept]
    exact Option.isSome_of_eq_some hfile

/-- **A load that makes components is confined to its file**, wherever it stops. -/
theorem reach_contents (hs : ws.Sound) (hfile : (ws.component g).file? = some file)
    (hloaded : file.loaded = false) (hg : g < ws.size)
    (hroot : (language.read source ws.forest).2 = some ws.forest.size)
    (hundotted : ∀ i ∈ (language.read source {}).1.nodes.toList, i.Undotted)
    (load : ComponentId → Build Unit) :
    Reach (Confined ws g) (ws.opening g language source)
      ((readTrees load g ((language.read source ws.forest).1.body ws.forest.size)).after
        (ws.opening g language source)) :=
  (confined_readTrees _ (within_opening hfile hg language source)
    (readable_of_undotted hs hroot (undotted_of_source hs hundotted))).reach_after
    (sound_opening hs hfile hloaded hg hroot)

theorem after_congr {α : Type} {m m' : Build α} {ws' : Workspace} (h : m ws = m' ws') :
    m.after ws = m'.after ws' := by
  rw [after, h, after]

/-- **Loading keeps to the file**: other components are left alone, and what is new stands below it. No
instruction that was there changes. -/
theorem loading_load (hs : ws.Sound) (hg : g < ws.size) (hfile : (ws.component g).file? = some file)
    (hloaded : file.loaded = false) (hundotted : file.isDirectory = false → ∀ entry ∈ ws.pendingSource? g,
      ∀ i ∈ (entry.1.read entry.2 {}).1.nodes.toList, i.Undotted) :
    ws.Loading g ((Build.load g).after ws) ∧
      ∀ i < ws.forest.size, ((Build.load g).after ws).forest.get i = ws.forest.get i := by
  have hmarked := Workspace.Loading.start ws g
  obtain ⟨load, hload⟩ := load_of_unloaded hfile hloaded
  rw [after_congr hload]
  cases hdirectory : file.isDirectory with
  | true => exact ⟨hmarked, fun _ _ => rfl⟩
  | false =>
    rw [if_neg Bool.false_ne_true]
    rcases readSource_cases load g file.path ((Change.edit g (.file .loaded)).apply ws) with
      hstop | hstop | ⟨language, source, hlanguage, hreader, hsource⟩
    · rw [hstop]
      exact ⟨hmarked, fun _ _ => rfl⟩
    · rw [hstop]
      exact ⟨hmarked.of_components rfl rfl rfl, fun _ _ => rfl⟩
    · obtain ⟨hnone, hsome⟩ := readSource_of_text load g hlanguage hreader hsource
      cases hread : (language.read source ws.forest).2 with
      | none =>
        rw [after, hnone hread]
        exact ⟨loading_reading ws g language source,
          fun i hi => language.get_read source ws.forest hi⟩
      | some root =>
        obtain ⟨rfl, hlt⟩ := (language.read_spec source ws.forest).2 root hread
        have hpending : ws.pendingSource? g = some (language, source) := by
          rw [pendingSource?, Component.pending?, hfile]
          simp [hloaded, hlanguage, show ws.disk.readText file.path = .ok source from hsource,
            Except.toOption]
        have hreach := reach_contents hs hfile hloaded hg hread
          (hundotted hdirectory (language, source) hpending) load
        obtain ⟨hdone, hforest⟩ := loading_of_confined (sound_opening hs hfile hloaded hg hread) hg
          (loading_opening hg language source) (by rw [component_opening hg]; rfl) hreach
        have hcontents : readSource load g file.path ((Change.edit g (.file .loaded)).apply ws) =
            readTrees load g ((language.read source ws.forest).1.body ws.forest.size)
              (ws.opening g language source) := hsome _ hread
        rw [after_congr hcontents]
        refine ⟨hdone, fun i hi => ?_⟩
        rw [hforest]
        exact language.get_read source ws.forest hi

/-- A load touches the file and what is new, and nothing else. -/
theorem loading_of_load (hs : ws.Sound) (hg : g < ws.size) (hundotted : ∀ entry ∈ ws.pendingSource? g,
      ∀ i ∈ (entry.1.read entry.2 {}).1.nodes.toList, i.Undotted)
    (hpending : (ws.component g).pending?.isSome = true) (h : Build.load g ws = .ok () u) :
    ws.Loading g u := by
  obtain ⟨file, hfile, hloaded⟩ := Component.exists_file_of_pending? hpending
  have hloading := (loading_load hs hg hfile hloaded fun _ => hundotted).1
  rwa [after, h] at hloading

end Build

/-- What is new while a file is loaded is in the file. -/
theorem Workspace.Loading.nearest {s : Workspace} (h : ws.Loading g s) (hs : s.Sound)
    (hfile : s.isFile g = true) {id : ComponentId} (hle : ws.size ≤ id) (hlt : id < s.size) :
    s.Nearest (fun a => s.isFile a = true) id g := by
  induction id using Nat.strongRecOn with
  | ind id ih =>
    obtain ⟨hnoFile, ⟨p, hparent, hp⟩, -⟩ := h.new hle hlt
    refine .above (fun hself => ?_) hparent ?_
    · exact Bool.false_ne_true (hnoFile.symm.trans hself)
    · rcases hp with rfl | hp
      · exact .here hfile
      · have hpid := hs.parent_lt hparent
        exact ih p hpid hp (lt_trans hpid hlt)

/-- **Loading is local.** Load a file whose source declares no dotted name, with success or not: every
other component and every instruction that was there is left as it was, no file stops being loaded, and
what is new is in that file. -/
theorem History.load_local {A : Workspace → Call → Prop} {ws : Workspace} (h : History A ws)
    {f : ComponentId} {file : SourceFile} (hfile : (ws.component f).file? = some file)
    (hundotted : file.isDirectory = false → ∀ entry ∈ ws.pendingSource? f,
      ∀ i ∈ (entry.1.read entry.2 {}).1.nodes.toList, i.Undotted) :
    let ws' := (Build.load f).after ws
    (ws.size ≤ ws'.size ∧ ∀ id < ws.size, id ≠ f → ws'.component id = ws.component id) ∧
    (ws.forest.size ≤ ws'.forest.size ∧ ∀ i < ws.forest.size, ws'.forest.get i = ws.forest.get i) ∧
    (∀ id, (ws.component id).file?.any SourceFile.loaded = true →
      (ws'.component id).file?.any SourceFile.loaded = true) ∧
    ∀ id, ws.size ≤ id → id < ws'.size → ws'.Nearest (fun a => ws'.isFile a = true) id f := by
  intro ws'
  have hs := h.sound
  have hf : f < ws.size := lt_size_of_isFile (isFile_of_file? hfile)
  have hreach : Reach (Loads fun _ => True) ws ws' := (Build.makes_load hf).reach_after hs
  have hfileHere : ws'.isFile f = true :=
    (hreach.extension.isFile hf).trans (Option.isSome_of_eq_some hfile)
  have hloaded : ∀ id, (Event.opened id).Marked ws → (Event.opened id).Marked ws' := fun id hid =>
    hreach.invariant (I := (Event.opened id).Marked) hs hid fun _ c _ legal _ hmarked =>
      hmarked.apply c legal
  cases hdone : file.loaded with
  | true =>
    have hsame : ws' = ws := by
      have hrun : Build.load f ws = .ok () ws := Build.load_of_pending?_eq_none (by
        rw [Component.pending?, hfile]
        simp [hdone])
      show (Build.load f).after ws = ws
      rw [Build.after, hrun]
    rw [hsame]
    exact ⟨⟨le_rfl, fun _ _ _ => rfl⟩, ⟨le_rfl, fun _ _ => rfl⟩, fun _ hid => hid,
      fun id hle hlt => absurd hlt (Nat.not_lt.mpr hle)⟩
  | false =>
    obtain ⟨hloading, hforest⟩ := Build.loading_load hs hf hfile hdone hundotted
    exact ⟨⟨hloading.size_le, fun id hid hne => hloading.others hid hne⟩,
      ⟨hreach.extension.forest_le, hforest⟩, hloaded,
      fun id hle hlt => hloading.nearest (hreach.sound hs) hfileHere hle hlt⟩

/-- A load that stops at a `return` in a namespace: what stands before it has been made, in the file that
is loaded, and the other file is left alone. -/
theorem History.load_local_stopped :
    let disk : Disk := ⟨[(["a.light"], .file (.text
      "namespace n\n function g\n  param p : int\n return\nfunction h\n")),
      (["b.light"], .file (.text "function h\n"))], ⟨"/"⟩⟩
    let ws := Call.play [.registerProject "p" ⟨"/"⟩ ⟨"/o"⟩ .plain, .load 0, .load 2]
      (Workspace.new {} disk [.light, .cpp])
    let ws' := (Build.load 1).after ws
    History (fun _ _ => True) ws ∧
      (Build.load 1).outcome ws = .error (.notPermitted "return" "namespace" "n") ∧
      ws'.size = ws.size + 3 ∧ ws'.component 2 = ws.component 2 ∧
      ws'.Nearest (fun a => ws'.isFile a = true) (ws.size + 2) 1 := by
  intro disk ws ws'
  have hhistory : History (fun _ _ => True) ws := .play (by decide +kernel)
  obtain ⟨hfile, hundotted, hstop, hsize, htwo⟩ : (ws.component 1).file?.isSome = true ∧
      (∀ entry ∈ ws.pendingSource? 1, ∀ i ∈ (entry.1.read entry.2 {}).1.nodes.toList, i.Undotted) ∧
      (Build.load 1).outcome ws = .error (.notPermitted "return" "namespace" "n") ∧
      ws'.size = ws.size + 3 ∧ 2 < ws.size := by decide +kernel
  clear_value ws
  obtain ⟨file, hfile⟩ := Option.isSome_iff_exists.mp hfile
  obtain ⟨hothers, -, -, hnew⟩ := hhistory.load_local hfile fun _ => hundotted
  exact ⟨hhistory, hstop, hsize, hothers.2 2 htwo (by decide),
    hnew _ (Nat.le_add_right _ _) (Nat.lt_of_lt_of_eq (Nat.lt_succ_self _) hsize.symm)⟩

end LightHeaders
