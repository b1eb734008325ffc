import LightHeaders.Proofs.Embedding
import LightHeaders.Proofs.HeaderForest

set_option autoImplicit false

/-! # Loading a header

The contents of a header are functions with parameters, and each of these can be made where it stands.
What can fail is to find that place: a name with a dot stands below the component that its front leads
to, and the front is resolved like any other name. So the first load of a header succeeds if and only if
every dotted name leads to a component when its turn comes (`History.load_header_iff`), and a header
without dotted names always loads.

Turns are told by the states that the load goes through (`Build.Turn`). The load inside a load is the
load itself (`Build.load_eq_loadWith`), so the names are resolved as they are anywhere else.
-/

namespace LightHeaders

open Text InstructionTree Workspace Build

variable {ws u : Workspace}

/-! ## The load inside a load -/

namespace Build

variable {ws : Workspace}

theorem loadWithin_eq_load (h : ws.forest.Sound) {bound : Nat} (hbound : ws.unloaded ≤ bound)
    (id : ComponentId) : loadWithin bound id ws = Build.load id ws := by
  have hunderway : Underway ws.unloaded [] ws :=
    ⟨h, le_rfl, fun _ hid => absurd hid List.not_mem_nil⟩
  have hwatched := fun {b : Nat} (hb : ws.unloaded ≤ b) =>
    (loadsAlike_loadWatched (pure ()) _ [] hb (Nat.lt_succ_self _) ws hunderway id).1
  exact (hwatched hbound).trans (hwatched le_rfl).symm

/-- **The load inside a load is the load itself.** -/
theorem load_eq_loadWith (h : ws.forest.Sound) (id : ComponentId) :
    Build.load id ws = loadWith Build.load id ws := by
  cases hpending : (ws.component id).pending?.isSome with
  | false =>
    rw [loadWith_of_marked hpending]
    exact (congrFun (loadWithin_eq ws.unloaded id) ws).trans (loadWith_of_marked hpending)
  | true =>
    have hunderway : Underway ws.unloaded [] ws :=
      ⟨h, le_rfl, fun _ hid => absurd hid List.not_mem_nil⟩
    obtain ⟨hpos, hmarked⟩ := hunderway.step hpending
    have hinner : LoadsAlike (Underway (ws.unloaded - 1) [id]) (loadWithin (ws.unloaded - 1)) Build.load :=
      fun ws' hws' other => by
        have heq := loadWithin_eq_load hws'.forest hws'.unloaded_le other
        refine ⟨heq, ?_⟩
        rw [after_congr heq]
        exact (agrees_load hws'.forest other).2
    refine (congrFun (loadWithin_eq ws.unloaded id) ws).trans ?_
    rw [if_neg (Nat.ne_of_gt hpos)]
    exact (agrees_loadWith (Underway.lasting _ _) hinner h id fun _ => hmarked).1

/-! ## Turns -/

/-- **A name whose turn comes.** Making the components of trees below `id` from the state `s` on, it comes
in the state `v` to declare the name below `start`. -/
inductive Turn (load : ComponentId → Build Unit) : Workspace → ComponentId → List InstructionTree →
    Workspace → ComponentId → String → Prop
  | head {s : Workspace} {id : ComponentId} {source : InstructionId} {i : Instruction}
      {body ts : List InstructionTree} : Turn load s id (.node source i body :: ts) s id i.name
  | inner {s u v : Workspace} {id child start : ComponentId} {source : InstructionId} {i : Instruction}
      {body ts : List InstructionTree} {name : String}
      (made : declare load id source i i.kind s = .ok child u) (turn : Turn load u child body v start name) :
      Turn load s id (.node source i body :: ts) v start name
  | next {s u v : Workspace} {id start : ComponentId} {t : InstructionTree} {ts : List InstructionTree}
      {name : String} (read : readTree load id t s = .ok () u) (turn : Turn load u id ts v start name) :
      Turn load s id (t :: ts) v start name

/-- The front of a dotted name leads to a component. -/
def Leads (load : ComponentId → Build Unit) (v : Workspace) (start : ComponentId) (name : String) : Prop :=
  ∀ front last, cutLast? '.' name.toList = some (front, last) →
    ∃ c w, componentNamedWith load start (String.ofList front) v = .ok c w

/-- The front of a dotted name is looked for, and that fails. -/
def Fails (load : ComponentId → Build Unit) (v : Workspace) (start : ComponentId) (name : String)
    (e : Failure) : Prop :=
  ∃ front last w, cutLast? '.' name.toList = some (front, last) ∧
    componentNamedWith load start (String.ofList front) v = .error e w

/-- What a result says of the names that were due: all lead somewhere if the work has succeeded, and if it
has failed, that is the failure of one that does not. -/
def Hinges {α : Type} (load : ComponentId → Build Unit) (due : Workspace → ComponentId → String → Prop) :
    EStateM.Result Failure Workspace α → Prop
  | .ok _ _ => ∀ v start name, due v start name → Leads load v start name
  | .error e _ => ∃ v start name, due v start name ∧ Fails load v start name e

/-- The names that are due for a tree: its own, and those of its body. -/
def Due (load : ComponentId → Build Unit) (s : Workspace) (id : ComponentId) :
    InstructionTree → Workspace → ComponentId → String → Prop
  | .node source i body, v, start, name => v = s ∧ start = id ∧ name = i.name ∨
    ∃ child u, declare load id source i i.kind s = .ok child u ∧ Turn load u child body v start name

section

variable {load : ComponentId → Build Unit} {s v : Workspace} {id start : ComponentId} {source : InstructionId}
  {i : Instruction} {name : String}

variable {t : InstructionTree}

theorem turn_cons {ts : List InstructionTree} : Turn load s id (t :: ts) v start name ↔
    Due load s id t v start name ∨ ∃ (_ : Unit) (u : Workspace), readTree load id t s = .ok () u ∧
      Turn load u id ts v start name := by
  constructor
  · intro h
    cases h with
    | head => exact .inl (.inl ⟨rfl, rfl, rfl⟩)
    | inner made turn => exact .inl (.inr ⟨_, _, made, turn⟩)
    | next read turn => exact .inr ⟨(), _, read, turn⟩
  · obtain ⟨source, i, body⟩ := t
    rintro ((⟨rfl, rfl, rfl⟩ | ⟨child, u, made, turn⟩) | ⟨-, u, read, turn⟩)
    · exact .head
    · exact .inner made turn
    · exact .next read turn

/-- **One declaration** hinges on its name alone. -/
theorem hinges_declare (kind : Kind) :
    Hinges load (fun v start name => v = s ∧ start = id ∧ name = i.name) (declare load id source i kind s) := by
  cases hcut : cutLast? '.' i.name.toList with
  | none =>
    have hbase : baseWith load id i.name = pure (id, i.name) := by rw [baseWith, hcut]
    rw [declare, addComponentWith, hbase]
    rintro _ _ _ ⟨rfl, rfl, rfl⟩ front last hdotted
    rw [hcut] at hdotted
    cases hdotted
  | some cut =>
    obtain ⟨front, last⟩ := cut
    have hbase : baseWith load id i.name = (do
        let c ← componentNamedWith load id (String.ofList front)
        return (c, String.ofList last)) := by rw [baseWith, hcut]
    cases hnamed : componentNamedWith load id (String.ofList front) s with
    | ok c w =>
      rw [declare, addComponentWith, hbase, bind_assoc, bind_assoc, bind_of_ok hnamed]
      rintro _ _ _ ⟨rfl, rfl, rfl⟩ _ _ hdotted
      rw [hcut] at hdotted
      cases hdotted
      exact ⟨c, w, hnamed⟩
    | error e w =>
      rw [declare, addComponentWith, hbase, bind_assoc, bind_assoc, bind_of_error hnamed]
      exact ⟨s, id, i.name, ⟨rfl, rfl, rfl⟩, front, last, w, hcut, hnamed⟩

theorem Hinges.bind {α β : Type} {m : Build α} {k : α → Build β}
    {due all : Workspace → ComponentId → String → Prop}
    {l : α → Workspace → Workspace → ComponentId → String → Prop} (h : Hinges load due (m s))
    (hk : ∀ a u, m s = .ok a u → Hinges load (l a u) (k a u)) (hall : ∀ v start name, all v start name ↔
      due v start name ∨ ∃ a u, m s = .ok a u ∧ l a u v start name) :
    Hinges load all ((m >>= k) s) := by
  cases hm : m s with
  | ok a u =>
    have hlater := hk a u hm
    rw [hm] at h
    rw [bind_of_ok hm]
    cases hr : k a u with
    | ok b w =>
      rw [hr] at hlater
      intro v start name hdue
      rcases (hall v start name).mp hdue with hdue | ⟨a', u', hm', hdue⟩
      · exact h v start name hdue
      · cases hm.symm.trans hm'
        exact hlater v start name hdue
    | error e w =>
      rw [hr] at hlater
      obtain ⟨v, start, name, hdue, hfails⟩ := hlater
      exact ⟨v, start, name, (hall v start name).mpr (.inr ⟨a, u, hm, hdue⟩), hfails⟩
  | error e u =>
    rw [hm] at h
    rw [bind_of_error hm]
    obtain ⟨v, start, name, hdue, hfails⟩ := h
    exact ⟨v, start, name, (hall v start name).mpr (.inl hdue), hfails⟩

/-! ## Functions with parameters -/

/-- A parameter with a type. -/
def IsParam : InstructionTree → Prop
  | .node _ i body => i.op = "param" ∧ i.type?.isSome = true ∧ body = []

/-- A function with nothing but parameters in it. -/
def IsPrototype : InstructionTree → Prop
  | .node _ i body => i.op = "function" ∧ ∀ t ∈ body, IsParam t

theorem hinges_param (hid : (s.component id).kind.describe = "function") (ht : IsParam t) :
    Hinges load (Due load s id t) (readTree load id t s) := by
  obtain ⟨source, i, body⟩ := t
  obtain ⟨hop, htype, rfl⟩ := ht
  obtain ⟨signature, hkind⟩ := Kind.exists_of_describe hid
  obtain ⟨type, htype⟩ := Option.isSome_iff_exists.mp htype
  have haction : action? i = none := by
    rw [action?, hop]
    rfl
  rw [readTree_of_function hkind haction, if_pos hop, declareParam, declareMember, htype]
  refine (hinges_declare _).bind (l := fun _ _ _ _ _ => False) (fun _ _ _ => fun _ _ _ => False.elim)
    fun v start name => or_congr_right ⟨?_, ?_⟩
  · rintro ⟨_, _, -, hturn⟩
    cases hturn
  · rintro ⟨_, _, -, ⟨⟩⟩

end

section

variable {load : ComponentId → Build Unit} (hload : LoadsNew load) {s : Workspace} {id : ComponentId}
  {t : InstructionTree} {ts : List InstructionTree}
include hload

/-- **Trees are read one after the other**: if each hinges on the names that are due for it, all hinge on
the names whose turn comes. -/
theorem hinges_readTrees {sort : String}
    (hts : ∀ t ∈ ts, ∀ u rest, (u.component id).kind.describe = sort → u.Sound → Ready u id (t :: rest) →
      Hinges load (Due load u id t) (readTree load id t u))
    (hid : (s.component id).kind.describe = sort) (hs : s.Sound) (h : Ready s id ts) :
    Hinges load (Turn load s id ts) (readTrees load id ts s) := by
  induction ts generalizing s with
  | nil =>
    rw [readTrees]
    rintro v start name ⟨⟩
  | cons t ts ih =>
    rw [readTrees]
    refine (hts t (.head _) s ts hid hs h).bind (fun _ u hread => ?_) fun v start name => turn_cons
    have hreach := ((makes_readTree hload t h).of_ok hs hread).1
    exact ih (fun t ht => hts t (.tail _ ht)) ((hreach.describe_eq h.lt).trans hid) (hreach.sound hs)
      (h.tail hs hreach)

theorem hinges_prototype (ht : IsPrototype t) (hid : (s.component id).kind.describe = "file")
    (hs : s.Sound) (h : Ready s id (t :: ts)) :
    Hinges load (Due load s id t) (readTree load id t s) := by
  obtain ⟨source, i, body⟩ := t
  obtain ⟨hop, hbody⟩ := ht
  have hopens : i.opens = true := by
    rw [Instruction.opens, hop]
    rfl
  rw [readTree_of_container (hid ▸ (.head _)), if_pos hopens]
  refine (hinges_declare _).bind (fun child u hmade => ?_) fun v start name => Iff.rfl
  have hi : Fresh s (source, i) := h.fresh _ (.head _)
  obtain ⟨hone, hunsettled, hfile⟩ := oneLine_of_containerKind?
    (by rw [containerKind?_eq, if_pos hopens]) hi.one
  obtain ⟨hreach, hchild⟩ := (runs_declare hload h.lt hi hone hunsettled hfile).of_ok hs hmade
  refine hinges_readTrees hload (fun t ht u _ hu _ _ => hinges_param hu (hbody t ht)) ?_ (hreach.sound hs)
    (h.inner hs hreach hchild)
  rw [← Workspace.kind, hchild.kind, Instruction.describe_of_opens hopens, hop]

end

theorem Turn.exists_node {load : ComponentId → Build Unit} {s v : Workspace} {id start : ComponentId}
    {ts : List InstructionTree} {name : String} (h : Turn load s id ts v start name) :
    ∃ node ∈ nodesAll ts, node.2.name = name := by
  induction h with
  | head => exact ⟨_, List.mem_append_left _ (.head _), rfl⟩
  | inner _ _ ih =>
    obtain ⟨node, hnode, hname⟩ := ih
    exact ⟨node, List.mem_append_left _ (.tail _ hnode), hname⟩
  | next _ _ ih =>
    obtain ⟨node, hnode, hname⟩ := ih
    exact ⟨node, List.mem_append_right _ hnode, hname⟩

end Build

/-! ## The trees of a header -/

/-- The names of a header: of its functions and of their parameters, in order. -/
def Header.names (source : String) : List String :=
  (prototypes source).flatMap fun p => p.name :: p.params.map Prod.fst

namespace Forest

variable {g : Forest}

theorem trees_of_holdsAll {α : Type} {sketch : α → Sketch} {f : α → List String}
    {Q : InstructionTree → Prop} (hone : ∀ id a, g.Holds id (sketch a) →
      Q (g.tree id) ∧ (g.tree id).nodes.map (·.2.name) = f a) {as : List α} {ids : List InstructionId}
    (h : g.HoldsAll ids (as.map sketch)) :
    (∀ t ∈ ids.map g.tree, Q t) ∧ (nodesAll (ids.map g.tree)).map (·.2.name) = as.flatMap f := by
  induction ids generalizing as with
  | nil =>
    obtain rfl := List.map_eq_nil_iff.mp h.nil_left
    exact ⟨by simp, rfl⟩
  | cons id ids ih =>
    obtain ⟨t, ts, hmap, hfirst, hrest⟩ := h.cons_left
    obtain ⟨a, as, rfl, rfl, rfl⟩ := List.map_eq_cons_iff.mp hmap
    obtain ⟨htree, hname⟩ := hone id a hfirst
    obtain ⟨htrees, hnames⟩ := ih hrest
    rw [List.map_cons, nodesAll, List.map_append, hname, hnames, List.flatMap_cons]
    exact ⟨List.forall_mem_cons.mpr ⟨htree, htrees⟩, rfl⟩

variable (hg : g.Sound)
include hg

variable {ids : List InstructionId} {ps : List Prototype}

variable {id : InstructionId}

theorem param_of_holds {param : String × String}
    (h : g.Holds id (.node ⟨"param", param.1, some param.2, []⟩ [])) :
    Build.IsParam (g.tree id) ∧ (g.tree id).nodes.map (·.2.name) = [param.1] := by
  rw [Holds] at h
  obtain ⟨-, hwording, hchildren⟩ := h
  obtain ⟨hop, hname, htype, -⟩ := Wording.mk.inj hwording
  have hnone : (g.get id).children = [] := by
    cases hids : (g.get id).children with
    | nil => rfl
    | cons c cs =>
      rw [hids] at hchildren
      obtain ⟨_, _, hnil, -⟩ := hchildren.cons_left
      cases hnil
  rw [hg.tree_eq, hnone, List.map_nil]
  exact ⟨⟨hop, by rw [htype]; rfl, rfl⟩, congrArg (fun name => [name]) hname⟩

theorem prototype_of_holds {p : Prototype} (h : g.Holds id p.sketch) :
    Build.IsPrototype (g.tree id) ∧
      (g.tree id).nodes.map (·.2.name) = p.name :: p.params.map Prod.fst := by
  rw [Prototype.sketch, Holds] at h
  obtain ⟨-, hwording, hchildren⟩ := h
  obtain ⟨hop, hname, -, -⟩ := Wording.mk.inj hwording
  obtain ⟨hparams, hnames⟩ := trees_of_holdsAll (f := fun param => [param.1])
    (fun _ _ => param_of_holds hg) hchildren
  rw [hg.tree_eq, InstructionTree.nodes, List.map_cons, hnames]
  exact ⟨⟨hop, hparams⟩, congrArg₂ _ hname List.map_eq_flatMap.symm⟩

theorem body_of_holdsBelow {root : InstructionId} (h : g.HoldsBelow root (ps.map Prototype.sketch)) :
    (∀ t ∈ g.body root, Build.IsPrototype t) ∧
      (nodesAll (g.body root)).map (·.2.name) = ps.flatMap fun p => p.name :: p.params.map Prod.fst := by
  have hbody : g.body root = (g.get root).children.map g.tree := by rw [body, hg.tree_eq]
  rw [hbody]
  exact trees_of_holdsAll (fun _ _ => prototype_of_holds hg) h.2

end Forest

theorem Header.body_read (source : String) {f : Forest} (hf : f.Sound) :
    (∀ t ∈ (read source f).1.body f.size, Build.IsPrototype t) ∧
      (nodesAll ((read source f).1.body f.size)).map (·.2.name) = names source := by
  have hg : (read source f).1.Sound := (grown_read source f).1.sound hf
  exact Forest.body_of_holdsBelow hg (holdsBelow_read source f)

/-! ## The first load -/

namespace Workspace

/-- Loading the header `f` with the given text, it comes in the state `v` to declare the name below
`start`. -/
def Asks (ws : Workspace) (f : ComponentId) (source : String) (v : Workspace) (start : ComponentId)
    (name : String) : Prop :=
  Build.Turn Build.load (ws.opening f .cpp source) f ((Header.read source ws.forest).1.body ws.forest.size)
    v start name

theorem ready_opening {ws : Workspace} (hs : ws.Sound) {f : ComponentId} {file : SourceFile}
    (hf : f < ws.size) (hfile : (ws.component f).file? = some file) (source : String) : Build.Ready
    (ws.opening f .cpp source) f
      ((Header.read source ws.forest).1.body ws.forest.size) := by
  obtain ⟨hgrown, -, hlt⟩ := Header.grown_read source ws.forest
  obtain ⟨hfresh, hnodup⟩ := fresh_of_grown hs hgrown hlt
  refine ⟨?_, fun node hnode => ?_, hnodup, _, Build.seated_body ?_ _⟩
  · rw [size_opening]
    exact hf
  · obtain ⟨hnew, hlater⟩ := hfresh node hnode
    refine ⟨hnew.lt, fun id => ?_, hnew.one⟩
    by_cases hid : id = f
    · rw [hid, component_opening hf]
      intro heq
      exact ne_of_lt hlater (Option.some.inj heq)
    · have hsame : (ws.opening f .cpp source).component id = ws.component id := by
        rw [opening, Change.component_edit_of_ne hid, Change.component_edit_of_ne hid]
        exact Change.component_edit_of_ne hid _
      rw [hsame]
      exact hnew.unused id
  · rw [isFile, kind, component_opening hf]
    simp [Edit.apply, Component.kind_of_file? hfile, Kind.mapFile, Kind.isFile, Kind.file?]

end Workspace

theorem Build.outcome_of_ok {α : Type} {m : Build α} {a : α} (h : m ws = .ok a u) : m.outcome ws = .ok a := by
  rw [outcome, h]

theorem Build.outcome_of_error {α : Type} {m : Build α} {e : Failure} (h : m ws = .error e u) :
    m.outcome ws = .error e := by
  rw [outcome, h]

theorem Build.hinges_load (hs : ws.Sound) {f : ComponentId} {file : SourceFile}
    (hfile : (ws.component f).file? = some file) (hloaded : file.loaded = false)
    (hplain : file.isDirectory = false) (hlanguage : Language.ofPath? file.path = some .cpp)
    (hreader : ws.readers.contains .cpp = true) {source : String}
    (hsource : ws.disk.readText file.path = .ok source) :
    Hinges Build.load (ws.Asks f source) (Build.load f ws) := by
  have hf : f < ws.size := lt_size_of_isFile (isFile_of_file? hfile)
  have hdescribe : ((ws.opening f .cpp source).component f).kind.describe = "file" := by
    rw [component_opening hf]
    simp [Edit.apply, Component.kind_of_file? hfile, Kind.mapFile, Kind.describe]
  have hroot : (Language.cpp.read source ws.forest).2 = some ws.forest.size := rfl
  have hrun : Build.load f ws = readTrees Build.load f
      ((Language.cpp.read source ws.forest).1.body ws.forest.size) (ws.opening f .cpp source) := by
    rw [load_eq_loadWith hs.forest, loadWith_of_file? hfile hloaded, hplain, if_neg Bool.false_ne_true]
    exact (readSource_of_text Build.load f (s := (Change.edit f (.file .loaded)).apply ws) hlanguage hreader
      hsource).2 _ hroot
  rw [hrun]
  exact hinges_readTrees loadsNew_load (fun t ht _ _ => hinges_prototype loadsNew_load
    ((Header.body_read source hs.forest).1 t ht)) hdescribe (sound_opening hs hfile hloaded hf rfl)
    (ready_opening hs hf hfile source)

/-- **When a header loads.** In every history, the first load of a readable header succeeds if and only if
each dotted name in it leads to a component without its last segment when its turn comes, and if it fails,
it fails as the resolution of such a name does. Only names of functions and parameters have a turn, so a
header in which none of these is dotted always loads. -/
theorem History.load_header_iff {A : Workspace → Call → Prop} {ws : Workspace} (h : History A ws)
    {f : ComponentId} {file : SourceFile} (hfile : (ws.component f).file? = some file)
    (hloaded : file.loaded = false) (hplain : file.isDirectory = false)
    (hextension : file.path.extension? = some "h" ∨ file.path.extension? = some "hpp")
    (hreader : ws.readers.contains .cpp = true) {source : String}
    (hsource : ws.disk.readText file.path = .ok source) :
    ((Build.load f).outcome ws = .ok () ↔ ∀ v start name, ws.Asks f source v start name →
      ∀ front last, cutLast? '.' name.toList = some (front, last) →
        ∃ c, (Build.componentNamed start (String.ofList front)).outcome v = .ok c) ∧
    (∀ e, (Build.load f).outcome ws = .error e → ∃ v start name front last,
      ws.Asks f source v start name ∧ cutLast? '.' name.toList = some (front, last) ∧
        (Build.componentNamed start (String.ofList front)).outcome v = .error e) ∧
    (∀ v start name, ws.Asks f source v start name → name ∈ Header.names source) ∧
    ((∀ name ∈ Header.names source, '.' ∉ name.toList) → (Build.load f).outcome ws = .ok ()) := by
  have hs := h.sound
  have hlanguage : Language.ofPath? file.path = some .cpp := by
    rw [Language.ofPath?]
    rcases hextension with heq | heq <;> rw [heq] <;> rfl
  have hhinges := hinges_load hs hfile hloaded hplain hlanguage hreader hsource
  have hnames : ∀ v start name, ws.Asks f source v start name → name ∈ Header.names source := by
    intro v start name hasks
    obtain ⟨node, hnode, rfl⟩ := hasks.exists_node
    rw [← (Header.body_read source hs.forest).2]
    exact List.mem_map_of_mem hnode
  have hfails : ∀ e, (Build.load f).outcome ws = .error e → ∃ v start name front last,
      ws.Asks f source v start name ∧ cutLast? '.' name.toList = some (front, last) ∧
        (Build.componentNamed start (String.ofList front)).outcome v = .error e := by
    intro e herror
    rw [error_of_outcome herror] at hhinges
    obtain ⟨v, start, name, hasks, front, last, w, hcut, hnamed⟩ := hhinges
    exact ⟨v, start, name, front, last, hasks, hcut, outcome_of_error hnamed⟩
  -- what does not succeed fails, and that takes a name that does not lead anywhere
  have hsucceeds : (∀ v start name, ws.Asks f source v start name → ∀ front last,
      cutLast? '.' name.toList = some (front, last) →
        ∃ c, (Build.componentNamed start (String.ofList front)).outcome v = .ok c) →
      (Build.load f).outcome ws = .ok () := by
    intro hall
    cases houtcome : (Build.load f).outcome ws with
    | ok u => rfl
    | error e =>
      obtain ⟨v, start, name, front, last, hasks, hcut, hnamed⟩ := hfails e houtcome
      obtain ⟨c, hc⟩ := hall v start name hasks front last hcut
      rw [hc] at hnamed
      cases hnamed
  refine ⟨⟨fun hok v start name hasks front last hcut => ?_, hsucceeds⟩, hfails, hnames, fun hplain => ?_⟩
  · rw [ok_of_outcome hok] at hhinges
    obtain ⟨c, w, hnamed⟩ := hhinges v start name hasks front last hcut
    exact ⟨c, outcome_of_ok hnamed⟩
  · refine hsucceeds fun v start name hasks front last hcut => ?_
    have hdotted : '.' ∈ name.toList := by
      rw [cutLast?_eq_some hcut]
      exact List.mem_append_right _ (.head _)
    exact absurd hdotted (hplain name (hnames v start name hasks))

/-- A header of plain prototypes, and one with a default value that reads like a dotted name. -/
theorem History.load_header_iff_plain_and_dotted :
    let disk : Disk := ⟨[(["a.h"], .file (.text "#include <b.h>\nint f(int x); // once\nvoid g(char *s);\n")),
      (["b.h"], .file (.text "int f(int x);\nvoid g(double x = 1.5);\n"))], ⟨"/"⟩⟩
    let ws := Call.play [.registerProject "p" ⟨"/"⟩ ⟨"/o"⟩ .plain, .load 0]
      (Workspace.new {} disk [.light, .cpp])
    History (fun _ _ => True) ws ∧ (Build.load 1).outcome ws = .ok () ∧
      ∃ v start name front last, name ∈ ["f", "x", "g", "1.5"] ∧
        cutLast? '.' name.toList = some (front, last) ∧
        (Build.componentNamed start (String.ofList front)).outcome v = .error (.unknownName "1") := by
  intro disk ws
  have hhistory : History (fun _ _ => True) ws := .play (by decide +kernel)
  obtain ⟨⟨a, hfile, hloaded, hplain, hext, hsource⟩, ⟨b, hfile', hloaded', hplain', hext', hsource'⟩, hreader,
      hundotted, hnames, herror⟩ :
      (∃ file ∈ (ws.component 1).file?, file.loaded = false ∧ file.isDirectory = false ∧
        file.path.extension? = some "h" ∧
        ws.disk.readText file.path = .ok "#include <b.h>\nint f(int x); // once\nvoid g(char *s);\n") ∧
      (∃ file ∈ (ws.component 2).file?, file.loaded = false ∧ file.isDirectory = false ∧
        file.path.extension? = some "h" ∧
        ws.disk.readText file.path = .ok "int f(int x);\nvoid g(double x = 1.5);\n") ∧
      ws.readers.contains .cpp = true ∧
      (∀ name ∈ Header.names "#include <b.h>\nint f(int x); // once\nvoid g(char *s);\n", '.' ∉ name.toList) ∧
      Header.names "int f(int x);\nvoid g(double x = 1.5);\n" = ["f", "x", "g", "1.5"] ∧
      (Build.load 2).outcome ws = .error (.unknownName "1") := by decide +kernel
  clear_value ws
  obtain ⟨-, -, -, hok⟩ := hhistory.load_header_iff hfile hloaded hplain (.inl hext) hreader hsource
  obtain ⟨-, hfails, hasked, -⟩ :=
    hhistory.load_header_iff hfile' hloaded' hplain' (.inl hext') hreader hsource'
  obtain ⟨v, start, name, front, last, hasks, hcut, hnamed⟩ := hfails _ herror
  exact ⟨hhistory, hok hundotted, v, start, name, front, last, hnames ▸ hasked v start name hasks, hcut, hnamed⟩

/-- A default value makes a readable header fail to load. -/
theorem History.load_header_default_value :
    let disk : Disk := ⟨[(["x.h"], .file (.text "void f(double x = 1.5);\n"))], ⟨"/"⟩⟩
    let ws := Call.play [.registerProject "p" ⟨"/"⟩ ⟨"/o"⟩ .plain, .load 0]
      (Workspace.new {} disk [.light, .cpp])
    ws.readers.contains .cpp = true ∧
    (∃ file ∈ (ws.component 1).file?, file.loaded = false ∧ file.isDirectory = false ∧
      file.path.extension? = some "h" ∧ ws.disk.readText file.path = .ok "void f(double x = 1.5);\n") ∧
    (Build.load 1).outcome ws = .error (.unknownName "1") := by
  decide +kernel

end LightHeaders
