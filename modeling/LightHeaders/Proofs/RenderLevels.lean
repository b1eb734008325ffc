import LightHeaders.Proofs.Emitting
import LightHeaders.Proofs.LoadRecursion
import LightHeaders.Proofs.Spelling

set_option autoImplicit false

/-! # Writing, level by level

A component is written with its children, and a recursion does that level by level. Where it is cut off
deep enough, it does the same as work without a cut (`Build.Approaches`).

To spell a name can load a file, which can declare more components below one that is being written; but
there is a number of components that is never exceeded (`Workspace.capacity`), unless something is made
that is not paid for. `Build.Free m ws` says that `m`, from `ws`, makes nothing of that sort.
-/

namespace LightHeaders

namespace Build

/-- From `ws`, `m` makes nothing that is not paid for. -/
abbrev Free {α : Type} (m : Build α) (ws : Workspace) : Prop := Agrees 0 m m ws

/-! ## Spelling -/

theorem lasting_forest : Lasting fun ws => ws.forest.Sound := fun _ _ _ hcost => hcost.forest

theorem loadsAlike_load : LoadsAlike (fun ws => ws.forest.Sound) load load :=
  fun _ hws id => agrees_load hws id

/-- **Spelling makes nothing that is not paid for.** -/
theorem spellingRules_free : SpellingRules fun _ m => ∀ ws : Workspace, ws.forest.Sound → Free m ws where
  pure a _ _ := .pure a
  throw e _ _ := .throw e
  bind hm hk ws hf := (hm ws hf).after_free fun a ws' _ hcost => hk a ws' (hcost.forest hf)
  read _ h ws hf := .get (h ws ws hf)
  targetNamed scope name _ hf := agrees_targetWith lasting_forest loadsAlike_load scope name hf

/-! ## Lines -/

section Lines

variable {ws : Workspace}

theorem free_write (id : ComponentId) (text : String) : Free (write id text) ws :=
  .update fun _ => rfl

theorem free_endLine (id : ComponentId) (stamp : Bool) : Free (endLine id stamp) ws := by
  refine (free_write id "\n").after_free fun _ ws₁ _ _ => .get ?_
  cases ws₁.fileOf? id with
  | none => exact .pure _
  | some file =>
    refine Agrees.after_free (.updateFile fun f => ⟨rfl, rfl⟩) fun _ ws₂ _ _ => ?_
    dsimp only
    split
    · exact Agrees.after_free (.updateForest fun hf => hf.modify _ fun _ => rfl)
        fun _ _ _ _ => .pure _
    · exact .pure _

theorem free_addIndented (id : ComponentId) (line : String) : Free (addIndented id line) ws :=
  .get <| (free_write id _).after_free fun _ _ _ _ =>
    (free_write id line).after_free fun _ _ _ _ => (free_endLine id true).discard

theorem free_addClosing (id : ComponentId) : Free (addClosing id) ws :=
  .get <| (free_write id _).after_free fun _ _ _ _ =>
    (free_write id _).after_free fun _ _ _ _ => (free_endLine id false).discard

theorem free_handOn (id : ComponentId) : Free (handOn id) ws := by
  refine .component ?_
  cases (ws.component id).forward? with
  | none => exact .pure _
  | some target => exact (free_write target _).after_free fun _ _ _ _ => .pure _

end Lines

/-! ## Work that is approached -/

/-- The changes that writing makes, with nothing known of the workspace. -/
abbrev Writes : Change.Class := Emits False False False fun _ => False

theorem primed_false (ws : Workspace) : ws.Primed False False False :=
  ⟨⟨False.elim, False.elim⟩, False.elim⟩

/-- What lies between two workspaces is writing, which is paid for where `C` holds. -/
structure Meanwhile (C : Prop) (ws ws' : Workspace) : Prop where
  reach : Reach Writes ws ws'
  costs : C → ws.Costs 0 ws'

theorem Meanwhile.refl (C : Prop) (ws : Workspace) : Meanwhile C ws ws :=
  ⟨.refl _ ws, fun _ => .refl ws⟩

theorem Meanwhile.trans {C : Prop} {ws ws' ws'' : Workspace} (h : Meanwhile C ws ws')
    (h' : Meanwhile C ws' ws'') : Meanwhile C ws ws'' :=
  ⟨h.reach.trans h'.reach, fun hC => (h.costs hC).trans (h'.costs hC)⟩

/-- Where a recursion is cut off, and what is done there. -/
structure Cut where
  bottom : ComponentId → Build String
  depth : Nat

/-- From a sound `ws`, `m` does the same as `lim` wherever it is cut off, if only deep enough. What it
does is writing, which is paid for where `C` holds. -/
def Approaches {α : Type} (C : Prop) (m : Cut → Build α) (lim : Build α) (ws : Workspace) : Prop :=
  ws.Sound → (∃ bound, ∀ cut, bound ≤ cut.depth → m cut ws = lim ws) ∧
    Runs Writes lim ws fun _ ws' => C → ws.Costs 0 ws'

namespace Approaches

variable {C : Prop} {α β : Type} {ws : Workspace} {m : Cut → Build α} {lim : Build α}

theorem of_free (hfree : C → ws.forest.Sound → Free lim ws) (hmakes : Makes Writes lim ws) :
    Approaches C (fun _ => lim) lim ws := by
  refine fun hs => ⟨⟨0, fun _ _ => rfl⟩, hmakes.given.weaken ?_⟩
  rintro _ _ - - ⟨hrun, -⟩ hC
  have hcosts := (hfree hC hs.forest).2
  rwa [Build.after, hrun] at hcosts

theorem of_makes (h : Makes Writes lim ws) : Approaches False (fun _ => lim) lim ws :=
  of_free False.elim h

theorem pure (x : α) : Approaches C (fun _ => Pure.pure x) (Pure.pure x) ws :=
  of_free (fun _ _ => .pure x) (.pure trivial)

theorem throw (e : Failure) : Approaches C (fun _ => throw e) (throw e : Build α) ws :=
  of_free (fun _ _ => .throw e) (.throw e)

theorem mono {C' : Prop} (h : Approaches C m lim ws) (hC : C' → C) : Approaches C' m lim ws :=
  fun hs => ⟨(h hs).1, (h hs).2.weaken fun _ _ _ _ hcosts h' => hcosts (hC h')⟩

theorem of_succ {m : (ComponentId → Build String) → Nat → Build α}
    (h : Approaches C (fun cut => m cut.bottom (cut.depth + 1)) lim ws) :
    Approaches C (fun cut => m cut.bottom cut.depth) lim ws := by
  intro hs
  obtain ⟨⟨bound, hbound⟩, hruns⟩ := h hs
  refine ⟨⟨bound + 1, fun cut hle => ?_⟩, hruns⟩
  have hsame := hbound ⟨cut.bottom, cut.depth - 1⟩ (by dsimp only; omega)
  dsimp only at hsame
  rwa [Nat.sub_add_cancel (by omega)] at hsame

/-- **Work after work**: the greater of two bounds is enough for both. -/
protected theorem bind {k : Cut → α → Build β} {limk : α → Build β} (h : Approaches C m lim ws)
    (hk : ∀ x ws', ws'.Sound → Meanwhile C ws ws' → lim ws = .ok x ws' →
      Approaches C (fun cut => k cut x) (limk x) ws') :
    Approaches C (fun cut => m cut >>= k cut) (lim >>= limk) ws := by
  intro hs
  obtain ⟨⟨bound, hbound⟩, hruns⟩ := h hs
  constructor
  · cases hrun : lim ws with
    | ok x ws' =>
      obtain ⟨hreach, hcosts⟩ := hruns.of_ok hs hrun
      have hs' := hreach.sound hs
      obtain ⟨⟨bound', hbound'⟩, -⟩ := hk x ws' hs' ⟨hreach, hcosts⟩ hrun hs'
      refine ⟨max bound bound', fun cut hle => ?_⟩
      calc (m cut >>= k cut) ws
        _ = k cut x ws' := bind_of_ok ((hbound cut (by omega)).trans hrun)
        _ = limk x ws' := hbound' cut (by omega)
        _ = (lim >>= limk) ws := (bind_of_ok hrun).symm
    | error e ws' =>
      refine ⟨bound, fun cut hle => ?_⟩
      exact (bind_of_error ((hbound cut hle).trans hrun)).trans (bind_of_error hrun).symm
  · refine .bind hruns.given fun x ws' hs' hreach hrun => ?_
    refine (hk x ws' hs' ⟨hreach, hrun.2⟩ hrun.1 hs').2.weaken fun _ _ _ _ hcosts hC => ?_
    exact (hrun.2 hC).trans (hcosts hC)

theorem get {k : Cut → Workspace → Build β} {limk : Workspace → Build β}
    (h : ws.Sound → Approaches C (fun cut => k cut ws) (limk ws) ws) :
    Approaches C (fun cut => MonadState.get >>= k cut) (MonadState.get >>= limk) ws :=
  fun hs => h hs hs

theorem component {k : Cut → Component → Build β} {limk : Component → Build β}
    {id : ComponentId}
    (h : Approaches C (fun cut => k cut (ws.component id)) (limk (ws.component id)) ws) :
    Approaches C (fun cut => Build.component id >>= k cut)
      (Build.component id >>= limk) ws := h

protected theorem discard (h : Approaches C m lim ws) :
    Approaches C (fun cut => Functor.discard (m cut)) (Functor.discard lim) ws :=
  h.bind (k := fun _ _ => Pure.pure ()) fun _ _ _ _ _ => .pure ()

protected theorem forM {l : List α} {f : Cut → α → Build Unit}
    {limf : α → Build Unit} (h : ∀ x ∈ l, ∀ ws', ws'.Sound → Meanwhile C ws ws' →
      Approaches C (fun cut => f cut x) (limf x) ws') :
    Approaches C (fun cut => l.forM (f cut)) (l.forM limf) ws := by
  induction l generalizing ws with
  | nil => exact .pure ()
  | cons x l ih =>
    intro hs
    refine Approaches.bind (h x (.head _) ws hs (.refl C ws))
      (k := fun cut _ => l.forM (f cut)) (fun _ ws' _ hfirst _ => ?_) hs
    exact ih fun y hy ws'' hs'' hthen =>
      h y (.tail _ hy) ws'' hs'' (hfirst.trans hthen)

end Approaches

/-! ## Components -/

section Components

variable {C : Prop} {ws : Workspace} {id : ComponentId} {render : Cut → ComponentId → Build String}
  {limRender : ComponentId → Build String} {includeFile : Cut → ComponentId → ComponentId → Build Unit}
  {limInclude : ComponentId → ComponentId → Build Unit}

/-- The work for the components below `id`, wherever it is asked for. Where it has to be paid for they
are known to come later. -/
def ApproachesBelow (C : Prop) (render : Cut → ComponentId → Build String)
    (limRender : ComponentId → Build String) (id : ComponentId) (ws : Workspace) : Prop :=
  ∀ ws', Meanwhile C ws ws' → ∀ child, (C → id < child) → child < ws'.size → ws'.isFile child = false →
    Approaches C (fun cut => render cut child) (limRender child) ws'

theorem ApproachesBelow.after {ws' : Workspace} (h : ApproachesBelow C render limRender id ws)
    (hmeanwhile : Meanwhile C ws ws') : ApproachesBelow C render limRender id ws' :=
  fun ws'' hmore => h ws'' (hmeanwhile.trans hmore)

theorem approaches_addIndented (line : String) :
    Approaches C (fun _ => addIndented id line) (addIndented id line) ws :=
  .of_free (fun _ _ => free_addIndented id line) (makes_addIndented False.elim line)

theorem approaches_addChildren (hrender : ApproachesBelow C render limRender id ws) (prune : Bool) :
    Approaches C (fun cut => addChildren (render cut) id prune)
      (addChildren limRender id prune) ws := by
  refine Approaches.get fun hs => Approaches.forM fun child hchild ws₁ _ hmeanwhile => ?_
  obtain ⟨hlt, -, hgreater⟩ :=
    hs.of_mem_childIds (Workspace.mem_childIds_of_mem_writtenChildren hchild)
  have hfile : ws₁.isFile child = false :=
    (hmeanwhile.reach.extension.isFile hlt).trans (Workspace.isFile_of_mem_writtenChildren hchild)
  refine .component ?_
  cases (ws₁.component child).forward?.isNone with
  | false => exact .pure ()
  | true =>
    exact (hrender ws₁ hmeanwhile child (fun _ => hgreater) (hmeanwhile.reach.lt hlt) hfile).bind
      (k := fun _ text => write id text) fun text _ _ _ _ =>
        .of_free (fun _ _ => free_write id text) (makes_write False.elim text)

theorem approaches_addOwnText {c : Component} (hrender : ApproachesBelow C render limRender id ws)
    (hfile : c.kind.isFile = true → Approaches C (fun cut => addFileText (includeFile cut) (render cut) id)
      (addFileText limInclude limRender id) ws) :
    Approaches C (fun cut => addOwnText (includeFile cut) (render cut) id c)
      (addOwnText limInclude limRender id c) ws := by
  have hp := primed_false
  have hblock : ∀ (head : String) (prune : Bool) (ws₁ : Workspace), Meanwhile C ws ws₁ →
      Approaches C
        (fun cut => do
          addIndented id head
          addChildren (render cut) id prune
          addClosing id)
        (do
          addIndented id head
          addChildren limRender id prune
          addClosing id) ws₁ := by
    intro head prune ws₁ hmeanwhile₁
    refine (approaches_addIndented head).bind (k := fun cut _ => _) fun _ ws₂ _ hmeanwhile₂ _ => ?_
    refine (approaches_addChildren (hrender.after (hmeanwhile₁.trans hmeanwhile₂)) prune).bind
      (k := fun _ _ => _) fun _ _ _ _ _ => ?_
    exact .of_free (fun _ _ => free_addClosing id) (makes_addClosing False.elim)
  unfold addOwnText
  cases hkind : c.kind with
  | file f =>
    rw [hkind] at hfile
    exact hfile rfl
  | space => exact hblock _ true ws (.refl C ws)
  | classType | structType => exact .throw _
  | function s =>
    refine (Approaches.of_free (fun _ hf => spellingRules_free.cppHead id s ws hf)
      (isCode_cppHead (hp ws).toReady id False.elim).makes.emits).bind (k := fun cut _ => _)
        fun head ws₁ _ hmeanwhile _ => ?_
    exact hblock head false ws₁ hmeanwhile
  | member m =>
    refine (Approaches.of_free (fun _ hf => spellingRules_free.cppMember id m ws hf)
      (isCode_cppMember (hp ws).toReady id False.elim).makes.emits).bind (k := fun _ _ => _)
        fun line _ _ _ _ => ?_
    exact approaches_addIndented line
  | operation o =>
    dsimp only
    cases c.instruction? with
    | none => exact .pure ()
    | some source =>
      refine (Approaches.of_free (fun _ hf => spellingRules_free.cppStatement id source o ws hf)
        (isCode_cppStatement (hp ws).toReady id source False.elim).makes.emits).bind
          (k := fun _ _ => _) fun line _ _ _ _ => ?_
      exact approaches_addIndented line

/-- Writing a component, with `render` for those below it. The text of a file is another matter. -/
theorem approaches_renderBelow (hrender : ApproachesBelow C render limRender id ws)
    (hfile : ws.isFile id = true → ∀ ws', Meanwhile C ws ws' →
      Approaches C (fun cut => addFileText (includeFile cut) (render cut) id)
        (addFileText limInclude limRender id) ws') :
    Approaches C (fun cut => renderBelow (includeFile cut) (render cut) id)
      (renderBelow limInclude limRender id) ws := by
  refine .component ?_
  have hmark : Approaches C (fun _ => update id fun c => { c with written := true })
      (update id fun c => { c with written := true }) ws :=
    .of_free (fun _ _ => .update fun _ => rfl)
      (Makes.edit .written trivial (.page .written False.elim) rfl)
  refine hmark.bind (k := fun cut _ => _) fun _ ws₁ _ hmeanwhile _ => ?_
  exact (approaches_addOwnText (hrender.after hmeanwhile) fun h => hfile h ws₁ hmeanwhile).bind
    (k := fun _ _ => _) fun _ _ _ _ _ =>
      .of_free (fun _ _ => free_handOn id) (makes_handOn False.elim)

end Components

end Build

end LightHeaders
