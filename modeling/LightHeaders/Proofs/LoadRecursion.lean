import LightHeaders.Proofs.Capacity
import LightHeaders.Proofs.Histories

set_option autoImplicit false

/-! # Loading comes to an end

To load a file is to read its source, and a declaration with a dotted name can load other files in the
middle of that. A file is marked as loaded before its source is read, and nothing takes the mark away,
so each load inside another one finds fewer files that are not loaded, and none that is being read
(`History.load_recursion`).

`loadWith` makes use of the loads inside it only where fewer files are left (`agrees_loadWith`). So how
deep the recursion is cut off, and what is done there, makes no difference.
-/

namespace LightHeaders

open InstructionTree

namespace Build

/-! ## Loads inside the reading of a source -/

section Alike

variable {I : Workspace → Prop} {load load' : ComponentId → Build Unit} {ws : Workspace}

/-- What is known of a workspace and cannot be lost while a source is read. -/
def Lasting (I : Workspace → Prop) : Prop :=
  ∀ ⦃k : Nat⦄ ⦃ws ws' : Workspace⦄, ws.Costs k ws' → I ws → I ws'

/-- Where `I` holds, `load` and `load'` do the same, and what they make is paid for. -/
def LoadsAlike (I : Workspace → Prop) (load load' : ComponentId → Build Unit) : Prop :=
  ∀ ws, I ws → ∀ id, Agrees 0 (load id) (load' id) ws

theorem agrees_addOperation (id : ComponentId) (source : InstructionId) (i : Instruction) (action : Action) :
    Agrees 1 (addOperation id source i action) (addOperation id source i action) ws := by
  refine .component ?_
  exact Agrees.then_free (.addBelow rfl) fun child _ _ _ => .update fun c => rfl

theorem agrees_lift (id nested : ComponentId) : Agrees 0 (lift id nested) (lift id nested) ws := by
  refine .get ?_
  cases ws.fileOf? id with
  | some file => exact .update fun c => rfl
  | none => exact .pure ()

theorem agrees_refuse {α : Type} (id : ComponentId) (op : String) {k : Nat} :
    Agrees k (refuse id op : Build α) (refuse id op) ws :=
  .component ((Agrees.throw _).mono (Nat.zero_le k))

theorem isFile_of_containerKind? {i : Instruction} {kind : Kind} (h : containerKind? i = some kind) :
    kind.isFile = false := by
  unfold containerKind? at h
  split at h <;> cases h <;> rfl

section

variable (hI : Lasting I) (hload : LoadsAlike I load load')

include hI hload

theorem agrees_descend (segments : List String) {found : ComponentId} {read : List String} (hws : I ws) :
    Agrees 0 (descend load found read segments) (descend load' found read segments) ws := by
  induction segments generalizing ws found read with
  | nil => exact .pure _
  | cons segment rest ih =>
    unfold descend
    refine .get ?_
    refine .first (fun _ => hload ws hws found) fun ws' hcost => ?_
    refine .component ?_
    cases (ws'.component found).child? segment with
    | some child => exact ih (hI hcost hws)
    | none => exact .pure _

theorem agrees_lookUpWith (start : ComponentId) (name : String) (hws : I ws) :
    Agrees 0 (lookUpWith load start name) (lookUpWith load' start name) ws := by
  unfold lookUpWith
  dsimp only
  cases cFunctionOf? (Text.pieces '.' name) with
  | some function =>
    refine .get ?_
    cases ws.fileOf? start with
    | none => exact .pure _
    | some file =>
      refine Agrees.after_free (.updateFile fun f => ?_) fun _ _ _ _ => .pure _
      split <;> exact ⟨rfl, rfl⟩
  | none =>
    cases Text.pieces '.' name with
    | nil => exact .pure _
    | cons first rest =>
      refine .get ?_
      cases ws.nearest? start first with
      | none => exact .pure _
      | some found => exact agrees_descend hI hload rest hws

theorem agrees_targetWith (start : ComponentId) (name : String) (hws : I ws) :
    Agrees 0 (targetWith load start name) (targetWith load' start name) ws := by
  refine (agrees_lookUpWith hI hload start name hws).after_free fun r _ _ _ => ?_
  cases r with
  | found target => exact .pure _
  | missing path => exact .throw _

theorem agrees_componentNamedWith (start : ComponentId) (name : String) (hws : I ws) :
    Agrees 0 (componentNamedWith load start name) (componentNamedWith load' start name) ws := by
  refine (agrees_targetWith hI hload start name hws).after_free fun t _ _ _ => ?_
  cases t with
  | component id => exact .pure _
  | native function => exact .throw _

variable {kind : Kind}

theorem agrees_addComponentWith (start : ComponentId) (name : String) (hkind : kind.isFile = false)
    (instruction? : Option InstructionId) (hws : I ws) :
    Agrees 1 (addComponentWith load start name kind instruction?)
      (addComponentWith load' start name kind instruction?) ws := by
  have hbase : Agrees 0 (baseWith load start name) (baseWith load' start name) ws := by
    unfold baseWith
    cases Text.cutLast? '.' name.toList with
    | none => exact .pure _
    | some cut =>
      exact (agrees_componentNamedWith hI hload start _ hws).after_free fun _ _ _ _ => .pure _
  exact hbase.after_free fun _ _ _ _ => .addBelow hkind

theorem agrees_declare (id : ComponentId) (source : InstructionId) (i : Instruction)
    (hkind : kind.isFile = false) (hws : I ws) :
    Agrees 1 (declare load id source i kind) (declare load' id source i kind) ws := by
  refine (agrees_addComponentWith hI hload id i.name hkind (some source) hws).then_free
    fun child _ _ _ => ?_
  exact Agrees.after_free (.update fun c => rfl) fun _ _ _ _ => .pure child

theorem agrees_declareMember (id : ComponentId) (source : InstructionId) (i : Instruction) (isParam : Bool)
    (hws : I ws) :
    Agrees 1 (declareMember load id source i isParam) (declareMember load' id source i isParam) ws := by
  unfold declareMember
  cases i.type? with
  | none => exact (Agrees.throw _).mono (Nat.zero_le 1)
  | some type => exact agrees_declare hI hload id source i rfl hws

theorem agrees_declareParam (id : ComponentId) (source : InstructionId) (i : Instruction) (hws : I ws) :
    Agrees 1 (declareParam load id source i) (declareParam load' id source i) ws := by
  refine (agrees_declareMember hI hload id source i true hws).then_free
    fun param _ _ _ => .update fun c => ?_
  cases hk : c.kind with
  | function s => simp [Component.pending?, Component.file?, Kind.file?, hk]
  | _ => rfl

end

mutual

/-- One step of reading: each instruction of a tree makes at most one component. -/
theorem agrees_readTree (hI : Lasting I) (hload : LoadsAlike I load load') :
    ∀ (t : InstructionTree) {ws : Workspace} (id : ComponentId), I ws →
      Agrees t.nodes.length (readTree load id t) (readTree load' id t) ws
  | .node source i body, ws, id, hws => by
    have hsize : (node source i body).nodes.length =
        1 + (nodesAll body).length := by
      rw [nodes, List.length_cons, Nat.add_comm]
    have hone : 1 ≤ 1 + (nodesAll body).length := Nat.le_add_right _ _
    have hmember := ((agrees_declareMember hI hload id source i false hws).discard).mono hone
    -- a component with a body: one for itself, then those of the body
    have hbody : ∀ {kind : Kind}, kind.isFile = false → ∀ (rest : ComponentId → Build Unit),
        (∀ ws' child, Agrees 0 (rest child) (rest child) ws') →
        Agrees (1 + (nodesAll body).length)
          (do
            let child ← declare load id source i kind
            readTrees load child body
            rest child)
          (do
            let child ← declare load' id source i kind
            readTrees load' child body
            rest child) ws := by
      intro kind hkind rest hrest
      refine (agrees_declare hI hload id source i hkind hws).bind fun child ws' _ hcost => ?_
      exact (agrees_readTrees hI hload body child (hI hcost hws)).then_free fun _ ws'' _ _ =>
        hrest ws'' child
    rw [hsize, readTree, readTree]
    refine .component ?_
    cases (ws.component id).kind with
    | file | space | classType =>
      dsimp only
      cases hkind : containerKind? i with
      | some kind =>
        have h := hbody (isFile_of_containerKind? hkind) (fun _ => pure ()) fun _ _ => .pure ()
        simpa using h
      | none =>
        dsimp only
        split
        · exact hmember
        · exact agrees_refuse id i.op
    | structType =>
      dsimp only
      split
      · exact hmember
      · exact agrees_refuse id i.op
    | function s =>
      dsimp only
      cases action? i with
      | some action => exact (agrees_addOperation id source i action).mono hone
      | none =>
        dsimp only
        split
        · exact (agrees_declareParam hI hload id source i hws).mono hone
        · split
          · exact hmember
          · split
            · exact hbody rfl (lift id) fun _ nested => agrees_lift id nested
            · exact agrees_refuse id i.op
    | member | operation => exact agrees_refuse id i.op

/-- **Reading trees makes at most one component for each instruction.** -/
theorem agrees_readTrees (hI : Lasting I) (hload : LoadsAlike I load load') :
    ∀ (ts : List InstructionTree) {ws : Workspace} (id : ComponentId), I ws →
      Agrees (nodesAll ts).length (readTrees load id ts) (readTrees load' id ts) ws
  | [], ws, id, _ => by
    rw [readTrees, readTrees, nodesAll]
    exact .pure ()
  | t :: ts, ws, id, hws => by
    rw [readTrees, readTrees, nodesAll, List.length_append]
    exact (agrees_readTree hI hload t id hws).bind fun _ ws' _ hcost =>
      agrees_readTrees hI hload ts id (hI hcost hws)

end

/-- **What a source makes is no more than there is room for.** -/
theorem agrees_readSource (hI : Lasting I) (hload : LoadsAlike I load load') (hforest : ws.forest.Sound)
    (id : ComponentId) (path : Path) (hws : I ws) :
    Agrees (ws.room (some path)) (readSource load id path) (readSource load' id path) ws := by
  unfold readSource
  cases Language.ofPath? path with
  | none => exact (Agrees.throw _).mono (Nat.zero_le _)
  | some language =>
    refine Agrees.after_free (.needReader language) fun _ ws₁ _ hcost₁ => ?_
    refine Agrees.after_free (.record _) fun _ ws₂ _ hcost₂ => ?_
    have hcost := hcost₁.trans hcost₂
    refine .ask fun source hsource => ?_
    have hroom : ws.room (some path) = source.length + 1 := by
      rw [← Workspace.Costs.room_eq hcost.disk, Workspace.room, Option.map_some, hsource]
    rw [hroom]
    have hadd := addSource?_eq_read language source ws₂
    obtain ⟨hgrown, hroot⟩ := language.read_spec source ws₂.forest
    have hsound := hgrown.sound (hcost.forest hforest)
    have hsize := language.size_read_le source ws₂.forest
    generalize language.read source ws₂.forest = result at hadd hroot hsound hsize
    obtain ⟨g, root?⟩ := result
    dsimp only at hadd hroot hsound hsize
    have hfree : Agrees 0 (addSource? language source) (addSource? language source) ws₂ := by
      refine ⟨rfl, ?_⟩
      rw [Build.after, hadd]
      exact .of_pending rfl (fun _ => hsound) le_rfl le_rfl fun _ => rfl
    refine hfree.after_free fun r ws₃ hr hcost₃ => ?_
    rw [hadd] at hr
    cases hr
    cases root? with
    | none => exact (Agrees.throw _).mono (Nat.zero_le _)
    | some root =>
      obtain ⟨rfl, hlt⟩ := hroot root rfl
      -- a source has no more nodes than characters, the root aside
      have hnodes : (nodesAll (g.body ws₂.forest.size)).length ≤
          source.length + 1 := by
        have hbelow := hsound.length_body_lt hlt
        omega
      refine Agrees.after_free (.update fun c => rfl) fun _ ws₄ hset hcost₄ => ?_
      refine Agrees.after_free (.updateFile fun f => ⟨rfl, rfl⟩) fun _ ws₅ hset' hcost₅ => ?_
      cases hset
      cases hset'
      have hstill := (((hcost.trans hcost₃).trans hcost₄).trans hcost₅)
      exact (agrees_readTrees hI hload _ id (hI hstill hws)).mono hnodes

/-- **A file that is loaded pays for itself**, and the loads inside it start where it is marked. -/
theorem agrees_loadWith (hI : Lasting I) (hload : LoadsAlike I load load') (hforest : ws.forest.Sound)
    (id : ComponentId)
    (hmarked : (ws.component id).pending?.isSome → I ((Change.edit id (.file .loaded)).apply ws)) :
    Agrees 0 (loadWith load id) (loadWith load' id) ws := by
  refine .component ?_
  cases hfile : (ws.component id).file? with
  | none => exact .pure ()
  | some file =>
    dsimp only
    cases hloaded : file.loaded with
    | true =>
      simp only [if_true]
      exact .pure ()
    | false =>
      have hpath : (ws.component id).pending? = some file.path := by
        rw [Component.pending?, hfile, Option.bind_some, hloaded, if_neg Bool.false_ne_true]
      have hI' := hmarked (Option.isSome_of_eq_some hpath)
      simp only [Bool.false_eq_true, if_false]
      refine .loaded hpath ?_
      cases file.isDirectory with
      | true => exact (Agrees.pure ()).mono (Nat.zero_le _)
      | false =>
        have hforest' : ((Change.edit id (.file .loaded)).apply ws).forest.Sound := hforest
        exact agrees_readSource hI hload hforest' id file.path hI'

end Alike

/-! ## The recursion -/

/-- Loads a file as `load` does, but raises an alarm where the loads inside one another are too deep, and
where a file that is being loaded is still to be read. -/
def loadWatched (alarm : Build Unit) : Nat → List ComponentId → ComponentId → Build Unit
  | 0, _, _ => alarm
  | depth + 1, active, id => do
    if active.contains id then
      if (← component id).pending?.isSome then alarm else pure ()
    else loadWith (loadWatched alarm depth (id :: active)) id

/-- What is known where files are being loaded: these are marked, and at most `n` files are not. -/
structure Underway (n : Nat) (active : List ComponentId) (ws : Workspace) : Prop where
  forest : ws.forest.Sound
  unloaded_le : ws.unloaded ≤ n
  marked : ∀ id ∈ active, (ws.component id).pending?.isSome = false

theorem Underway.lasting (n : Nat) (active : List ComponentId) : Lasting (Underway n active) := by
  intro k ws ws' hcost hws
  refine ⟨hcost.forest hws.forest, le_trans hcost.unloaded_le hws.unloaded_le, fun id hid => ?_⟩
  cases hnow : (ws'.component id).pending?.isSome with
  | false => rfl
  | true =>
    have hbefore := hcost.pending id hnow
    rw [hws.marked id hid] at hbefore
    cases hbefore

variable {ws : Workspace} {id : ComponentId}

/-- **One step into the recursion**: a file that is marked is one file less to load. -/
theorem Underway.step {n : Nat} {active : List ComponentId} (h : Underway n active ws)
    (hid : (ws.component id).pending?.isSome) :
    0 < n ∧ Underway (n - 1) (id :: active) ((Change.edit id (.file .loaded)).apply ws) := by
  have hpending := ws.pending?_marked id
  have hfewer : ((Change.edit id (.file .loaded)).apply ws).unloaded < ws.unloaded := by
    rw [Workspace.unloaded_eq, Workspace.unloaded_eq]
    refine Workspace.countP_components_lt rfl (fun other hother => ?_) hid ?_
    · rw [hpending] at hother
      split at hother
      · cases hother
      · exact hother
    · rw [hpending, if_pos rfl]
      rfl
  have hle := h.unloaded_le
  refine ⟨by omega, h.forest, by omega, fun other hother => ?_⟩
  rw [hpending]
  split
  · rfl
  · next hne => exact h.marked other ((List.mem_cons.mp hother).resolve_left hne)

theorem loadWith_of_marked {load : ComponentId → Build Unit} (h : (ws.component id).pending?.isSome = false) :
    loadWith load id ws = .ok () ws := by
  rw [loadWith, bind_component]
  cases hfile : (ws.component id).file? with
  | none => rfl
  | some file =>
    have hloaded : file.loaded = true := by
      rw [Component.isSome_pending?, hfile, Option.any_some] at h
      simpa using h
    simp only [hloaded, if_true]
    rfl

theorem loadWithin_eq (bound : Nat) (id : ComponentId) : loadWithin bound id =
    loadWith (if bound = 0 then fun _ => pure () else loadWithin (bound - 1)) id := by
  cases bound <;> rfl

/-- **However deep loads are cut off, they do the same** as long as fewer files are to be loaded, and no
alarm is raised. -/
theorem loadsAlike_loadWatched (alarm : Build Unit) (depth : Nat) {n bound : Nat} (active : List ComponentId)
    (hbound : n ≤ bound) (hdepth : n < depth) :
    LoadsAlike (Underway n active) (loadWithin bound) (loadWatched alarm depth active) := by
  induction depth generalizing n bound active with
  | zero => exact absurd hdepth (Nat.not_lt_zero n)
  | succ depth ih =>
    intro ws hws id
    rw [loadWithin_eq, loadWatched]
    by_cases hactive : active.contains id = true
    · have hmarked := hws.marked id (List.contains_iff_mem.mp hactive)
      simp only [hactive, if_true]
      refine ⟨?_, ?_⟩
      · rw [loadWith_of_marked hmarked]
        show _ = (if (ws.component id).pending?.isSome then alarm else pure ()) ws
        rw [hmarked]
        rfl
      · rw [Build.after, loadWith_of_marked hmarked]
        exact .refl ws
    · simp only [hactive]
      -- the loads inside come where this file is marked, so one file fewer is left for them
      refine agrees_loadWith (I := fun ws => 0 < n ∧ Underway (n - 1) (id :: active) ws)
        ?_ ?_ hws.forest id fun hid => hws.step hid
      · exact fun k ws ws' hcost hws => ⟨hws.1, Underway.lasting _ _ hcost hws.2⟩
      · intro ws' hws' file
        rw [if_neg (by omega)]
        exact ih (id :: active) (by omega) (by omega) ws' hws'.2 file

/-- **Loading pays for what it makes.** -/
theorem agrees_load (h : ws.forest.Sound) (id : ComponentId) : Agrees 0 (load id) (load id) ws := by
  have hunderway : Underway ws.unloaded [] ws :=
    ⟨h, le_rfl, fun _ hid => absurd hid List.not_mem_nil⟩
  exact ⟨rfl, (loadsAlike_loadWatched (pure ()) _ [] le_rfl (Nat.lt_succ_self _) ws
    hunderway id).2⟩

end Build

/-! ## Every history -/

/-- A tree of instructions is complete: its bound is never met. -/
theorem Forest.Sound.tree_eq {f : Forest} (hf : f.Sound) (id : InstructionId) :
    f.tree id = .node id (f.get id) ((f.get id).children.map f.tree) := by
  -- a child comes later than its parent, so what is left of the bound is enough for it
  have henough : ∀ m {n : Nat} {id : InstructionId}, f.size ≤ id + m → f.size ≤ id + n →
      f.treeWithin m id = f.treeWithin n id := by
    have hleaf : ∀ {n : Nat} {id : InstructionId}, f.size ≤ id →
        f.treeWithin n id = .node id (f.get id) [] := by
      intro n id hle
      have hnone : (f.get id).children = [] := by
        refine List.eq_nil_iff_forall_not_mem.mpr fun c hc => ?_
        exact Nat.not_le_of_lt (lt_trans (hf.later hc).1 (hf.later hc).2) hle
      cases n with
      | zero => rfl
      | succ n => rw [treeWithin, hnone, List.map_nil]
    intro m
    induction m with
    | zero =>
      intro n id hm _
      rw [hleaf (n := 0) (by omega), hleaf (by omega)]
    | succ m ih =>
      intro n id hm hn
      cases n with
      | zero => rw [hleaf (by omega), hleaf (n := 0) (by omega)]
      | succ n =>
        rw [treeWithin, treeWithin]
        congr 1
        refine List.map_congr_left fun c hc => ?_
        have hlater := Nat.succ_le_of_lt (hf.later hc).1
        exact ih (by omega) (by omega)
  calc f.tree id = f.treeWithin (f.size + 1) id := henough f.size (by omega) (by omega)
    _ = .node id (f.get id) ((f.get id).children.map f.tree) := rfl

end LightHeaders
