import LightHeaders.Proofs.Findings
import LightHeaders.Proofs.HeaderText
import LightHeaders.Proofs.Spelling

set_option autoImplicit false

/-! # Writing the body of a file twice

Writing reads the tree and the pages in the file it is done for, and it puts nothing on a page but what
it spelled from these. So if the body of a file can be written from one workspace, it can be written from
another one that differs from it in other pages only, and the same text comes out
(`Retake.repeats_addBody`).

The two runs are followed side by side (`Retake.Repeats`). The lines that instructions remember need not
be the same before. Each of them is either set to the same line in both runs or left alone in both
(`Retake.Echo`).
-/

namespace LightHeaders

open Workspace Forest Change Component

namespace Workspace

/-- A component of the file `f` that can have text: the file itself, or one that was written. -/
def Inked (ws : Workspace) (f z : ComponentId) : Prop := z = f ∨ (ws.component z).written = true

theorem line?_stamp_eq (ws : Workspace) (i j : InstructionId) (line : Nat) :
    ((stamp i line).apply ws).line? j =
      if j = i ∧ i < ws.forest.size then some line else ws.line? j := by
  rw [line?, apply, Forest.stamp, get_modify_eq]
  split <;> rfl

end Workspace

/-- The text of a component and, in a file, the number of the next line. -/
def Component.sheet (c : Component) : String × Option Nat :=
  (c.buffer.text, c.file?.map SourceFile.nextLine)

/-- The body of a file is written twice, from `start` and from `again`. -/
structure Retake where
  start : Workspace
  again : Workspace
  file : ComponentId
  sound : start.Sound
  loaded : start.Loaded
  home : start.ForwardsHome

namespace Retake

open Workspace Build

variable {E : Retake} {α β : Type} {W V : ComponentId → Prop}

/-- The first run is at `ws` and the second one at `ws'`. The trees are still those of `start`, and the
same is on the pages in the file. A line that differs was set in neither run. What has text in the first
run was written. -/
structure Echo (E : Retake) (ws ws' : Workspace) : Prop where
  bare : ws.bare = E.start.bare
  bare' : ws'.bare = E.start.bare
  sheet : ∀ z, E.start.fileOf? z = some E.file → (ws'.component z).sheet = (ws.component z).sheet
  line? : ∀ i, ws'.line? i = ws.line? i ∨ ws.line? i = E.start.line? i ∧ ws'.line? i = E.again.line? i
  inked : ∀ z, E.start.fileOf? z = some E.file → ws.text z ≠ "" → ws.Inked E.file z

/-- Where `m` succeeds in the first run, `m'` succeeds in the second one and gives the same. The
components among `W` are inked. -/
def Repeats (E : Retake) (W : ComponentId → Prop) (m m' : Build α) : Prop :=
  ∀ ws ws', E.Echo ws ws' → (∀ z, W z → ws.Inked E.file z) → ∀ a u, m ws = .ok a u →
    ∃ u', m' ws' = .ok a u' ∧ E.Echo u u' ∧ ∀ z, ws.Inked E.file z → u.Inked E.file z

/-! ## Programs -/

theorem Repeats.pure (a : α) : E.Repeats W (pure a) (pure a) := by
  rintro ws ws' h - _ _ ⟨⟩
  exact ⟨ws', rfl, h, fun _ hz => hz⟩

theorem Repeats.throw (e : Failure) (m' : Build α) : E.Repeats W (throw e) m' := by
  rintro _ _ _ - _ _ ⟨⟩

theorem Repeats.bind {m m' : Build α} {k k' : α → Build β} (hm : E.Repeats W m m')
    (hk : ∀ a, E.Repeats W (k a) (k' a)) : E.Repeats W (m >>= k) (m' >>= k') := by
  intro ws ws' h hW b u hrun
  obtain ⟨a, ws₁, hfirst, hrun⟩ := exists_of_bind_eq_ok hrun
  obtain ⟨ws₁', hfirst', h₁, hkept₁⟩ := hm ws ws' h hW a ws₁ hfirst
  obtain ⟨u', hrun', h₂, hkept₂⟩ := hk a ws₁ ws₁' h₁ (fun z hz => hkept₁ z (hW z hz)) b u hrun
  exact ⟨u', (bind_of_ok hfirst').trans hrun', h₂, fun z hz => hkept₂ z (hkept₁ z hz)⟩

/-- The file itself is always inked. -/
theorem Repeats.mono {m m' : Build α} (h : E.Repeats V m m') (hV : ∀ z, V z → z = E.file ∨ W z) :
    E.Repeats W m m' := fun ws ws' hecho hW =>
  h ws ws' hecho fun z hz => (hV z hz).elim .inl (hW z)

theorem Repeats.discard {m m' : Build α} (h : E.Repeats W m m') :
    E.Repeats W (Functor.discard m) (Functor.discard m') := by
  have hbind : ∀ m : Build α, Functor.discard m = m >>= fun _ => Pure.pure PUnit.unit := fun m => by
    rw [bind_pure_comp]
    rfl
  rw [hbind m, hbind m']
  exact h.bind fun _ => .pure _

/-- What is read of the workspace can be told from its tree. -/
theorem Repeats.get {k k' : Workspace → Build β} (hk : ∀ ws, ws.bare = E.start.bare → k ws = k E.start)
    (hk' : ∀ ws, ws.bare = E.start.bare → k' ws = k' E.start) (h : E.Repeats W (k E.start) (k' E.start)) :
    E.Repeats W (MonadState.get >>= k) (MonadState.get >>= k') := by
  intro ws ws' hecho hW a u hrun
  rw [bind_get, hk ws hecho.bare] at hrun
  rw [bind_get, hk' ws' hecho.bare']
  exact h ws ws' hecho hW a u hrun

theorem Repeats.read {k : Workspace → Build β} (hk : ∀ ws, ws.bare = E.start.bare → k ws = k E.start)
    (h : E.Repeats W (k E.start) (k E.start)) :
    E.Repeats W (MonadState.get >>= k) (MonadState.get >>= k) := .get hk hk h

variable {id : ComponentId}

theorem Repeats.component {k k' : Component → Build β}
    (hk : ∀ ws : Workspace, ws.bare = E.start.bare → k (ws.component id) = k (E.start.component id))
    (hk' : ∀ ws : Workspace, ws.bare = E.start.bare → k' (ws.component id) = k' (E.start.component id))
    (h : E.Repeats W (k (E.start.component id)) (k' (E.start.component id))) :
    E.Repeats W (Build.component id >>= k) (Build.component id >>= k') := by
  intro ws ws' hecho hW a u hrun
  rw [bind_component, hk ws hecho.bare] at hrun
  rw [bind_component, hk' ws' hecho.bare']
  exact h ws ws' hecho hW a u hrun

theorem Repeats.forM {l : List α} {m m' : α → Build Unit} (h : ∀ a ∈ l, E.Repeats W (m a) (m' a)) :
    E.Repeats W (l.forM m) (l.forM m') := by
  induction l with
  | nil => exact .pure _
  | cons a l ih =>
    exact (h a (.head _)).bind fun _ => ih fun b hb => h b (.tail _ hb)

/-! ## Edits -/

section Edits

variable {ws ws' : Workspace}

theorem Echo.size_eq (h : E.Echo ws ws') : ws.size = E.start.size ∧ ws'.size = E.start.size := by
  rw [size_of_bare h.bare, size_of_bare h.bare']
  exact ⟨rfl, rfl⟩

theorem Echo.text (h : E.Echo ws ws') {z : ComponentId} (hz : E.start.fileOf? z = some E.file) :
    ws'.text z = ws.text z := congrArg Prod.fst (h.sheet z hz)

theorem Echo.fileOf?_eq (h : E.Echo ws ws') (z : ComponentId) :
    ws.fileOf? z = E.start.fileOf? z ∧ ws'.fileOf? z = E.start.fileOf? z := by
  exact ⟨fileOf?_of_bare h.bare z, fileOf?_of_bare h.bare' z⟩

/-- **The same edit in both runs**: it leaves the tree alone, and it adds text to a component that is inked
only. -/
theorem Echo.edit (h : E.Echo ws ws') (id : ComponentId) (e : Edit) (hbare : ∀ c, (e.apply c).bare = c.bare)
    (hsheet : ∀ c c', c'.sheet = c.sheet → (e.apply c').sheet = (e.apply c).sheet)
    (hwritten : ∀ c, c.written = true → (e.apply c).written = true)
    (hink : (∀ c, (e.apply c).buffer.text = c.buffer.text) ∨
      ((Change.edit id e).apply ws).Inked E.file id) :
    E.Echo ((Change.edit id e).apply ws) ((Change.edit id e).apply ws') ∧
      ∀ z, ws.Inked E.file z → ((Change.edit id e).apply ws).Inked E.file z := by
  have hkept : ∀ z, ws.Inked E.file z → ((Change.edit id e).apply ws).Inked E.file z := by
    rintro z (hz | hz)
    · exact .inl hz
    · rw [Workspace.Inked, Change.apply, component_modify_eq]
      split
      · exact .inr (hwritten _ hz)
      · exact .inr hz
  refine ⟨⟨(ws.bare_modify id hbare).trans h.bare, (ws'.bare_modify id hbare).trans h.bare', fun z hz => ?_,
    h.line?, fun z hz hne => ?_⟩, hkept⟩
  · rw [Change.apply, Change.apply, component_modify_eq, component_modify_eq, h.size_eq.1, h.size_eq.2]
    split
    · exact hsheet _ _ (h.sheet z hz)
    · exact h.sheet z hz
  · -- text that is not new was inked before the edit
    rw [Workspace.text, Change.apply, component_modify_eq] at hne
    rcases hink with hsame | hinked
    · refine hkept z (h.inked z hz fun htext => hne ?_)
      split
      · exact (hsame _).trans htext
      · exact htext
    · by_cases heq : z = id
      · exact heq ▸ hinked
      · rw [if_neg fun hand => heq hand.1] at hne
        exact hkept z (h.inked z hz hne)

/-- An edit of a file that notes libraries or counts lines. -/
theorem Echo.editFile (h : E.Echo ws ws') (id : ComponentId) (g : FileEdit) (next : Nat → Nat)
    (hbare : ∀ f, (g.apply f).bare = f.bare) (hnext : ∀ f, (g.apply f).nextLine = next f.nextLine) :
    E.Echo ((Change.edit id (.file g)).apply ws) ((Change.edit id (.file g)).apply ws') ∧
      ∀ z, ws.Inked E.file z → ((Change.edit id (.file g)).apply ws).Inked E.file z := by
  have hsheet : ∀ c : Component, ((Edit.file g).apply c).sheet = (c.sheet.1, c.sheet.2.map next) := by
    intro c
    rw [Component.sheet, Component.sheet, Component.file?, Component.file?, Edit.apply, Kind.file?_mapFile,
      Option.map_map, Option.map_map]
    exact congrArg _ (congrArg (fun view => c.kind.file?.map view) (funext hnext))
  refine h.edit id (.file g) (fun c => ?_) (fun c c' hc => ?_) (fun _ hc => hc) (.inl fun _ => rfl)
  · simp only [Edit.apply, Component.bare]
    cases c.kind with
    | file f => simp only [Kind.mapFile, hbare]
    | _ => rfl
  · rw [hsheet, hsheet, hc]

end Edits

/-! ## Spelling -/

section Spelling

variable {ws : Workspace}

/-- Noting a library changes no page and no line. -/
theorem Echo.noting {ws' : Workspace} (h : E.Echo ws ws') (scope : ComponentId) (t : Target) :
    E.Echo (ws.noting scope t) (ws'.noting scope t) ∧
      ∀ z, ws.Inked E.file z → (ws.noting scope t).Inked E.file z := by
  cases t with
  | component id => exact ⟨h, fun _ hz => hz⟩
  | native function =>
    rw [Workspace.noting, Workspace.noting, (h.fileOf?_eq scope).1, (h.fileOf?_eq scope).2]
    cases E.start.fileOf? scope with
    | none => exact ⟨h, fun _ hz => hz⟩
    | some file =>
      exact h.editFile file (.library function.library) id
        (FileEdit.library_keeps SourceFile.bare (fun _ _ => rfl) _)
        (FileEdit.library_keeps SourceFile.nextLine (fun _ _ => rfl) _)

/-- **A name leads to the same thing in both runs.** -/
theorem repeats_targetNamed (scope : ComponentId) (name : String) :
    E.Repeats W (targetNamed scope name) (targetNamed scope name) := by
  intro ws ws' h _ t u hrun
  obtain ⟨ht, rfl⟩ := targetNamed_of_loaded (E.loaded.of_bare h.bare) hrun
  have ht' : ws'.targetAt? scope name = some t := by
    rw [← ht, targetAt?_of_bare (h.bare'.trans h.bare.symm)]
  obtain ⟨hecho, hinked⟩ := h.noting scope t
  exact ⟨_, targetNamed_eq_of_loaded (E.loaded.of_bare h.bare') ht', hecho, hinked⟩

/-- **What is spelled is the same in both runs.** -/
theorem repeats_spelling (W : ComponentId → Prop) : SpellingRules fun _ m => E.Repeats W m m where
  pure := .pure
  throw e := .throw e _
  bind := .bind
  read hk h := .read (fun ws hb => hk E.start ws hb) (h E.start)
  targetNamed := repeats_targetNamed

end Spelling

/-! ## Lines -/

section Lines

variable {id : ComponentId}

/-- **The same text is added in both runs**, to a component that is inked. -/
theorem repeats_write (s : String) : E.Repeats (fun z => z = id) (write id s) (write id s) := by
  rintro ws ws' h hW _ _ ⟨⟩
  have hinked : ((edit id (.text s)).apply ws).Inked E.file id :=
    (hW id rfl).imp_right fun hid =>
      (ws.modify_keeps (g := (Edit.text s).apply) id written (fun _ => rfl) id).trans hid
  have hsheet : ∀ c : Component, ((Edit.text s).apply c).sheet = (c.sheet.1 ++ s, c.sheet.2) := fun c =>
    congrArg (·, c.sheet.2) (Buffer.text_push ..)
  obtain ⟨hecho, hkept⟩ := h.edit id (.text s) (fun _ => rfl) (fun c c' hc => by rw [hsheet, hsheet, hc])
    (fun _ hc => hc) (.inr hinked)
  exact ⟨_, rfl, hecho, hkept⟩

theorem repeats_mark {m m' : Build α} (hid : E.start.fileOf? id = some E.file)
    (h : E.Repeats (fun z => z = id) m m') :
    E.Repeats W (do
      update id fun c => { c with written := true }
      m) (do
      update id fun c => { c with written := true }
      m') := by
  intro ws ws' hecho _ a u hrun
  obtain ⟨hmarked, hkept⟩ := hecho.edit id .written (fun _ => rfl) (fun _ _ hc => hc) (fun _ _ => rfl)
    (.inl fun _ => rfl)
  have hinked : ((edit id .written).apply ws).Inked E.file id := by
    have hlt := E.sound.lt_size_of_fileOf? hid
    rw [Workspace.Inked, apply, component_modify_eq, if_pos ⟨rfl, hecho.size_eq.1 ▸ hlt⟩]
    exact .inr rfl
  obtain ⟨u', hrun', hafter, hkept'⟩ := h _ _ hmarked (fun z hz => hz ▸ hinked) a u hrun
  exact ⟨u', hrun', hafter, fun z hz => hkept' z (hkept z hz)⟩

theorem repeats_stamp (i : InstructionId) (line : Nat) :
    E.Repeats W (updateForest fun f => f.stamp i line) (updateForest fun f => f.stamp i line) := by
  rintro ws ws' h - _ _ ⟨⟩
  have hbare : ∀ ws : Workspace, ((stamp i line).apply ws).bare = ws.bare := fun ws => by
    simp only [apply, Workspace.bare, bare_stamp]
  have hsize : ∀ ws : Workspace, ws.bare = E.start.bare → ws.forest.size = E.start.forest.size := by
    intro ws hb
    have hnodes := congrArg (·.forest.nodes.size) hb
    dsimp only [Workspace.bare] at hnodes
    rwa [Forest.bare, Forest.bare, Array.size_map, Array.size_map] at hnodes
  refine ⟨(stamp i line).apply ws', rfl, ⟨(hbare ws).trans h.bare, (hbare ws').trans h.bare',
    h.sheet, fun j => ?_, h.inked⟩, fun _ hz => hz⟩
  show ((stamp i line).apply ws').line? j = ((stamp i line).apply ws).line? j ∨
    ((stamp i line).apply ws).line? j = _ ∧ ((stamp i line).apply ws').line? j = _
  rw [ws.line?_stamp_eq, ws'.line?_stamp_eq, hsize ws h.bare, hsize ws' h.bare']
  split
  · exact .inl rfl
  · exact h.line? j

/-- **A line ends in both runs.** It has the same number, and the same instruction remembers it. -/
theorem repeats_endLine (hid : E.start.fileOf? id = some E.file) (stamp : Bool) :
    E.Repeats (fun z => z = id) (endLine id stamp) (endLine id stamp) := by
  refine (repeats_write "\n").bind fun _ => ?_
  intro ws ws' h hW line u hrun
  have hfile := isFile_of_fileOf? hid
  have hnumber : (ws'.component E.file).file?.map SourceFile.nextLine =
      (ws.component E.file).file?.map SourceFile.nextLine :=
    congrArg Prod.snd (h.sheet E.file (E.sound.fileOf?_self hfile))
  rw [bind_get, (h.fileOf?_eq id).1, hid, isFile_of_bare h.bare, instruction?_of_bare h.bare] at hrun
  rw [bind_get, (h.fileOf?_eq id).2, hid, isFile_of_bare h.bare', instruction?_of_bare h.bare']
  dsimp only at hrun ⊢
  rw [hnumber]
  -- with the number known, both runs do the same
  refine (?_ : E.Repeats (fun z => z = id) _ _) ws ws' h hW line u hrun
  refine Repeats.bind ?_ fun _ => ?_
  · rintro ws ws' h - _ _ ⟨⟩
    obtain ⟨hecho, hkept⟩ := h.editFile E.file .lineEnd (· + 1) (fun _ => rfl) fun _ => rfl
    exact ⟨_, rfl, hecho, hkept⟩
  · split
    · exact (repeats_stamp _ _).bind fun _ => .pure _
    · exact .pure _

theorem repeats_marginLine (hid : E.start.fileOf? id = some E.file) (line : String) (stamp : Bool) :
    E.Repeats (fun z => z = id)
      (do
        write id ((← MonadState.get).margin id)
        write id line
        discard <| endLine id stamp)
      (do
        write id ((← MonadState.get).margin id)
        write id line
        discard <| endLine id stamp) := by
  refine Repeats.read (fun ws hb => by rw [margin_of_bare hb]) ?_
  exact (repeats_write _).bind fun _ => (repeats_write line).bind fun _ => (repeats_endLine hid stamp).discard

theorem repeats_addIndented (hid : E.start.fileOf? id = some E.file) (line : String) :
    E.Repeats (fun z => z = id) (addIndented id line) (addIndented id line) := repeats_marginLine hid line true

theorem repeats_addClosing (hid : E.start.fileOf? id = some E.file) :
    E.Repeats (fun z => z = id) (addClosing id) (addClosing id) := repeats_marginLine hid _ false

/-- **The same text is handed on in both runs**, to the caller or to the file. -/
theorem repeats_handOn (hid : E.start.fileOf? id = some E.file) :
    E.Repeats W (handOn id) (handOn id) := by
  intro ws ws' h _ text u hrun
  have htext : (ws'.component id).buffer.text = (ws.component id).buffer.text := h.text hid
  rw [handOn, bind_component, forward?_of_bare h.bare] at hrun
  rw [handOn, bind_component, forward?_of_bare h.bare', htext]
  refine (?_ : E.Repeats (fun z => z = E.file) _ _) ws ws' h (fun z hz => .inl hz) text u hrun
  cases htarget : (E.start.component id).forward? with
  | none => exact .pure _
  | some target =>
    obtain ⟨-, hfile⟩ := E.home id target htarget
    obtain rfl : E.file = target := Option.some.inj (hid.symm.trans hfile)
    exact (repeats_write _).bind fun _ => .pure _

end Lines

/-! ## Components -/

section Components

variable {id : ComponentId} {render render' : ComponentId → Build String}
  {includeFile includeFile' : ComponentId → ComponentId → Build Unit}

theorem repeats_addChildren (prune : Bool)
    (h : ∀ child ∈ E.start.writtenChildren id prune, E.Repeats (fun z => z = id) (render child) (render' child)) :
    E.Repeats (fun z => z = id) (addChildren render id prune) (addChildren render' id prune) := by
  refine Repeats.get (fun _ hb => by rw [writtenChildren_of_bare hb])
    (fun _ hb => by rw [writtenChildren_of_bare hb]) ?_
  refine Repeats.forM fun child hchild => ?_
  refine Repeats.component (fun _ hb => by rw [forward?_of_bare hb]) (fun _ hb => by rw [forward?_of_bare hb]) ?_
  split
  · exact (h child hchild).bind fun text => repeats_write text
  · exact .pure _

/-- **A component that is no file**, by its kind. -/
theorem repeats_addOwnText (hid : E.start.fileOf? id = some E.file) {c : Component}
    (hno : c.kind.isFile = false)
    (h : ∀ child ∈ (E.start.component id).childIds, E.start.isFile child = false →
      E.Repeats (fun z => z = id) (render child) (render' child)) :
    E.Repeats (fun z => z = id) (addOwnText includeFile render id c)
      (addOwnText includeFile' render' id c) := by
  have hchildren : ∀ prune, E.Repeats (fun z => z = id) (addChildren render id prune)
      (addChildren render' id prune) := fun prune => repeats_addChildren prune fun child hchild =>
    h child (mem_childIds_of_mem_writtenChildren hchild) (isFile_of_mem_writtenChildren hchild)
  unfold addOwnText
  cases hkind : c.kind with
  | file file =>
    rw [hkind] at hno
    cases hno
  | space =>
    exact (repeats_addIndented hid _).bind fun _ => (hchildren true).bind fun _ => repeats_addClosing hid
  | classType | structType => exact .throw _ _
  | function s =>
    exact ((repeats_spelling _).cppHead id s).bind fun head => (repeats_addIndented hid head).bind fun _ =>
      (hchildren false).bind fun _ => repeats_addClosing hid
  | member m => exact ((repeats_spelling _).cppMember id m).bind fun line => repeats_addIndented hid line
  | operation o =>
    cases c.instruction? with
    | none => exact .pure _
    | some source =>
      exact ((repeats_spelling _).cppStatement id source o).bind fun line => repeats_addIndented hid line

theorem repeats_renderBelow (hid : E.start.fileOf? id = some E.file) (hno : E.start.isFile id = false)
    (h : ∀ child ∈ (E.start.component id).childIds, E.start.isFile child = false →
      E.Repeats (fun z => z = id) (render child) (render' child)) :
    E.Repeats W (renderBelow includeFile render id) (renderBelow includeFile' render' id) := by
  have hk : ∀ (includeFile : ComponentId → ComponentId → Build Unit) (render : ComponentId → Build String)
      (ws : Workspace), ws.bare = E.start.bare → addOwnText includeFile render id (ws.component id) =
        addOwnText includeFile render id (E.start.component id) := by
    intro includeFile render ws hb
    have hkind : (ws.component id).kind = (E.start.component id).kind := kind_eq_of_bare hb hno
    unfold addOwnText
    rw [hkind, name_of_bare hb, instruction?_of_bare hb]
  refine Repeats.component (fun ws hb => by rw [hk _ _ ws hb]) (fun ws hb => by rw [hk _ _ ws hb]) ?_
  exact repeats_mark hid ((repeats_addOwnText hid hno h).bind fun _ => repeats_handOn hid)

/-- **A component with what is below it**, by induction on the depth. -/
theorem repeats_renderWithin (depth : Nat) (hid : E.start.fileOf? id = some E.file)
    (hno : E.start.isFile id = false) :
    E.Repeats W (renderWithin includeFile depth id) (renderWithin includeFile' depth id) := by
  induction depth generalizing id W with
  | zero => exact .pure _
  | succ depth ih =>
    exact repeats_renderBelow hid hno fun child hchild hno' =>
      ih ((E.sound.fileOf?_child hchild hno').trans hid) hno'

theorem repeats_renderInside (hid : E.start.fileOf? id = some E.file) (hno : E.start.isFile id = false) :
    E.Repeats W (renderInside includeFile id) (renderInside includeFile' id) := by
  -- the bound of the recursion is read from the workspace, and both runs have to read the same one
  have hk : ∀ ws : Workspace, ws.bare = E.start.bare → ws.capacity = E.start.capacity := fun ws hb => by
    rw [capacity_of_loaded (E.loaded.of_bare hb), capacity_of_loaded E.loaded, size_of_bare hb]
  exact Repeats.get (fun ws hb => by rw [hk ws hb]) (fun ws hb => by rw [hk ws hb])
    (repeats_renderWithin _ hid hno)

/-- **The body of the file is the same both times.** -/
theorem repeats_addBody (hf : E.start.isFile E.file = true) :
    E.Repeats W (addBody includeFile E.file) (addBody includeFile' E.file) := by
  refine Repeats.get (fun _ hb => by rw [lifted_of_bare hb]) (fun _ hb => by rw [lifted_of_bare hb]) ?_
  refine (Repeats.forM fun x hx => ?_).bind fun _ => ?_
  · obtain ⟨hno, hof, -⟩ := forward?_of_mem_lifted E.sound E.home hf hx
    exact (repeats_renderInside hof hno).discard
  · refine (repeats_addChildren true fun child hchild => ?_).mono fun z hz => .inl hz
    have hno := isFile_of_mem_writtenChildren hchild
    exact repeats_renderInside ((E.sound.fileOf?_child (mem_childIds_of_mem_writtenChildren hchild) hno).trans
      (E.sound.fileOf?_self hf)) hno

end Components

end Retake

end LightHeaders
