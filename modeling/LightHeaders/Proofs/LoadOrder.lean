import LightHeaders.Proofs.LazyLoading

set_option autoImplicit false

/-! # Names whatever has been loaded

A question is **transparent** to loading if it has the same answer now and after any files have been
loaded and any names resolved (`Workspace.Transparent`). The answer is the same component if it is the
one that was there, or was made from the same instruction of the source of the same file
(`Workspace.SameComponent`).

Each name is transparent whose first segment is **disclosed**: no file that the search for it comes to
has yet to be loaded and would then show something else by that name. For a name of one segment there
is no other way to be transparent (`History.lookUp_transparent`).
-/

namespace LightHeaders

open Text Build

namespace Workspace

/-! ## What a search comes to -/

/-- The scopes that a search for `name` comes to: up to the first that has such a child. -/
def climbed (ws : Workspace) (name : String) : List ComponentId → List ComponentId
  | [] => []
  | scope :: above =>
    scope :: if ((ws.component scope).child? name).isSome then [] else ws.climbed name above

/-- No file that the search for the first segment comes to would show something else by that name if
it were loaded. -/
def Discloses (ws : Workspace) (start : ComponentId) (name : String) : Prop :=
  cFunctionOf? (pieces '.' name) = none → ∀ first ∈ (pieces '.' name).head?,
    ∀ g ∈ ws.climbed first (ws.enclosing start), (load g).succeeds ws = true →
      (((load g).after ws).component g).child? first = (ws.component g).child? first

instance (ws : Workspace) (start : ComponentId) (name : String) :
    Decidable (ws.Discloses start name) :=
  inferInstanceAs (Decidable (_ → ∀ first ∈ (pieces '.' name).head?,
    ∀ g ∈ ws.climbed first (ws.enclosing start), _ → _))

section

variable {ws s : Workspace} {name : String}

variable {scopes : List ComponentId}

theorem mem_of_mem_climbed {g : ComponentId} (h : g ∈ ws.climbed name scopes) : g ∈ scopes := by
  induction scopes with
  | nil => exact h
  | cons scope above ih =>
    rw [climbed] at h
    rcases List.mem_cons.mp h with rfl | h
    · exact .head _
    · split at h
      · cases h
      · exact .tail _ (ih h)

theorem findSome?_of_climbed (h : ∀ g ∈ ws.climbed name scopes,
      (s.component g).child? name = (ws.component g).child? name) :
    scopes.findSome? (fun scope => (s.component scope).child? name) =
      scopes.findSome? fun scope => (ws.component scope).child? name := by
  induction scopes with
  | nil => rfl
  | cons scope above ih =>
    rw [climbed] at h
    rw [List.findSome?_cons, List.findSome?_cons, h scope (.head _)]
    cases hchild : (ws.component scope).child? name with
    | some found => rfl
    | none =>
      refine ih fun g hg => h g (.tail _ ?_)
      rw [hchild]
      exact hg

/-- A search that comes to a file which shows something new ends there. -/
theorem findSome?_of_new {g y : ComponentId} (hg : g ∈ ws.climbed name scopes)
    (hnew : (s.component g).child? name = some y) (hothers : ∀ scope ∈ scopes, scope ≠ g →
      (s.component scope).child? name = (ws.component scope).child? name) :
    scopes.findSome? (fun scope => (s.component scope).child? name) = some y := by
  induction scopes with
  | nil => cases hg
  | cons scope above ih =>
    rw [List.findSome?_cons]
    by_cases hscope : scope = g
    · rw [hscope, hnew]
    · rw [hothers scope (.head _) hscope]
      rw [climbed] at hg
      have hg := (List.mem_cons.mp hg).resolve_left (Ne.symm hscope)
      cases hchild : (ws.component scope).child? name with
      | some found =>
        rw [hchild] at hg
        cases hg
      | none =>
        rw [hchild] at hg
        exact ih hg fun a ha => hothers a (.tail _ ha)

end

section

variable {ws s : Workspace} {start g : ComponentId} {first : String}

/-- A child in a warmed workspace: as before, if loading would not change it. -/
theorem Warmed.child?_eq (h : ws.Warmed s) (hs : ws.Sound) (hg : g < ws.size)
    (hshown : ∀ u, Build.load g ws = .ok () u →
      (u.component g).child? first = (ws.component g).child? first) :
    (s.component g).child? first = (ws.component g).child? first := by
  have hstill : (s.component g).still = (ws.component g).still →
      (s.component g).child? first = (ws.component g).child? first := fun hstill =>
    congrFun (congrArg Face.child? (Component.face_of_still hstill)) first
  cases hpending : (ws.component g).pending?.isSome with
  | false =>
    exact hstill (h.known g hg
      (Option.isNone_iff_eq_none.mp (Option.isSome_eq_false_iff.mp hpending)))
  | true =>
    rcases h.pending g hg hpending with hsame | ⟨-, u, base, hu, hshows⟩
    · exact hstill hsame
    · have hlt := ((makes_load hg).of_ok hs hu).1.lt hg
      have hchild := hshows.child? (.inl rfl) hlt first
      rw [renumber_of_lt hg, hshown u hu] at hchild
      rw [hchild]
      cases hold : (ws.component g).child? first with
      | none => rfl
      | some y => rw [Option.map_some, renumber_of_lt (hs.lt_of_child? hold)]

/-- **The first segment is found in the same place.** -/
theorem Warmed.nearest?_eq (h : ws.Warmed s) (hs : ws.Sound) (hstart : start < ws.size)
    (hshown : ∀ g ∈ ws.climbed first (ws.enclosing start), ∀ u, Build.load g ws = .ok () u →
      (u.component g).child? first = (ws.component g).child? first) :
    s.nearest? start first = ws.nearest? start first := by
  rw [nearest?, nearest?, h.reach.extension.enclosing_eq hs (h.reach.sound hs) hstart]
  refine findSome?_of_climbed fun g hg => h.child?_eq hs ?_ (hshown g hg)
  exact lt_of_le_of_lt (hs.le_of_mem_enclosing (mem_of_mem_climbed hg)) hstart

theorem Sound.nearest?_lt (hs : ws.Sound) {found : ComponentId}
    (h : ws.nearest? start first = some found) : found < ws.size := by
  obtain ⟨scope, -, hchild⟩ := List.exists_of_findSome?_eq_some h
  exact hs.lt_of_child? hchild

end

/-! ## The same component -/

/-- The component was made from the instruction at a position of the source of a file. -/
def MadeFrom (ws : Workspace) (x file : ComponentId) (position : Nat) : Prop :=
  ws.fileOf? x = some file ∧ ∃ root, (ws.component file).instruction? = some root ∧
    (ws.component x).instruction? = some (root + position)

/-- `x₁` in `s₁` and `x₂` in `s₂` are the same: a component that was there in `ws`, or two that were
made since from the same instruction of the same file. -/
def SameComponent (ws s₁ s₂ : Workspace) (x₁ x₂ : ComponentId) : Prop :=
  (x₁ < ws.size ∧ x₁ = x₂) ∨ (ws.size ≤ x₁ ∧ ws.size ≤ x₂ ∧
    ∃ file position, s₁.MadeFrom x₁ file position ∧ s₂.MadeFrom x₂ file position)

section

variable {ws s s₁ s₂ u base : Workspace} {g x : ComponentId}

theorem Warmed.madeFrom (h : ws.Warmed s) (hs : ws.Sound) (hu : u.Sound) (hload : ws.Loading g u)
    (hg : g < ws.size) (hfile : ws.isFile g = true) (hshows : ws.Shows g u base s) (hnew : ws.size ≤ x)
    (hlt : x < u.size) :
    ∃ i, (u.component x).instruction? = some i ∧
      s.MadeFrom (renumber ws.size base.size x) g (i - ws.forest.size) := by
  have hsound := h.reach.sound hs
  have hthere : g < u.size := lt_of_lt_of_le hg hload.size_le
  have hfileOf : s.fileOf? (renumber ws.size base.size x) = some g := by
    -- upwards: the parent was made before, and is new as well or the file itself
    induction x using Nat.strong_induction_on with
    | _ x ih =>
      obtain ⟨p, hp, hplace⟩ := (hload.new hnew hlt).parent
      have hparent : (s.component (renumber ws.size base.size x)).parent? =
          some (renumber ws.size base.size p) := by
        refine (congrArg Face.parent? (hshows.2 x (.inr hnew) hlt).2).trans ?_
        show (u.component x).parent?.map (renumber ws.size base.size) = _
        rw [hp, Option.map_some]
      rw [hsound.fileOf?_eq, h.noFile _ (le_trans hshows.1 (le_renumber hnew)), hparent]
      dsimp only
      rcases hplace with rfl | hplace
      · rw [renumber_of_lt hg]
        exact hsound.fileOf?_self (by rw [h.reach.extension.isFile hg]; exact hfile)
      · exact ih p (hu.parent_lt hp) hplace (lt_trans (hu.parent_lt hp) hlt)
  obtain ⟨i, hi, hle⟩ := (hload.new hnew hlt).source
  refine ⟨i, hi, hfileOf, base.forest.size, ?_, ?_⟩
  · have hroot := congrArg Face.source? (hshows.2 g (.inl rfl) hthere).2
    rw [renumber_of_lt hg] at hroot
    refine hroot.trans ?_
    show (u.component g).instruction?.map (renumber ws.forest.size base.forest.size) = _
    rw [hload.root (lt_of_le_of_lt hnew hlt), Option.map_some, renumber_self]
  · refine (congrArg Face.source? (hshows.2 x (.inr hnew) hlt).2).trans ?_
    show (u.component x).instruction?.map (renumber ws.forest.size base.forest.size) = _
    rw [hi, Option.map_some, renumber_of_le hle]

theorem Same.sameComponent {x₁ x₂ : ComponentId} (h : ws.Same s₁ s₂ x₁ x₂) (hs : ws.Sound)
    (hundotted : ws.Undotted) (h₁ : ws.Warmed s₁) (h₂ : ws.Warmed s₂) :
    ws.SameComponent s₁ s₂ x₁ x₂ := by
  cases h with
  | known hlt => exact .inl ⟨hlt, rfl⟩
  | @made g x u _ _ there pending load left right new lt =>
    have hfile : ws.isFile g = true := by
      by_contra hno
      rw [Component.pending?_eq_none (Bool.eq_false_iff.mpr hno)] at pending
      cases pending
    have hu := sound_of_load hs there load
    have hloading := loading_of_load hs there (hundotted _ there) pending load
    obtain ⟨i, hi, hmade₁⟩ := h₁.madeFrom hs hu hloading there hfile left new lt
    obtain ⟨j, hj, hmade₂⟩ := h₂.madeFrom hs hu hloading there hfile right new lt
    cases hi.symm.trans hj
    exact .inr ⟨le_trans left.1 (le_renumber new), le_trans right.1 (le_renumber new), g,
      i - ws.forest.size, hmade₁, hmade₂⟩

end

/-! ## Transparent names -/

/-- A file is loaded, or a name is resolved, without a failure. -/
inductive Explores (ws : Workspace) : Workspace → Prop
  | load {g : ComponentId} {ws' : Workspace} (ok : load g ws = .ok () ws') : Explores ws ws'
  | lookUp {start : ComponentId} {name : String} {r : Resolution} {ws' : Workspace}
      (ok : lookUp start name ws = .ok r ws') : Explores ws ws'

/-- The name has the same answer now and after any files were loaded and names resolved. -/
def Transparent (ws : Workspace) (start : ComponentId) (name : String) : Prop :=
  ∀ ws', Relation.ReflTransGen Explores ws ws' →
    Build.InStep (fun r r' t t' => r.AgreeBy (ws.SameComponent t t') r')
      (lookUp start name ws) (lookUp start name ws')

section

variable {ws ws' : Workspace} {start : ComponentId} {name : String}

theorem warmed_of_explores (hs : ws.Sound) (hundotted : ws.Undotted)
    (h : Relation.ReflTransGen Explores ws ws') : ws.Warmed ws' := by
  induction h with
  | refl => exact .refl ws
  | tail _ hstep ih =>
    cases hstep with
    | load ok => exact ih.load hs hundotted ok
    | lookUp ok => exact warmed_lookUp hs hundotted ih ok

/-- **A disclosed name is transparent.** -/
theorem Discloses.transparent (h : ws.Discloses start name) (hs : ws.Sound) (hundotted : ws.Undotted)
    (hstart : start < ws.size) : ws.Transparent start name := by
  intro ws' hexplores
  have hwarmed := warmed_of_explores hs hundotted hexplores
  cases hname : Build.cFunctionOf? (pieces '.' name) with
  | some function =>
    rw [Build.lookUp, lookUp_native hname, lookUp_native hname]
    exact rfl
  | none =>
    cases hpieces : pieces '.' name with
    | nil =>
      simp only [Build.lookUp, Build.lookUpWith, hpieces]
      exact rfl
    | cons first rest =>
      have hshown : ∀ g ∈ ws.climbed first (ws.enclosing start), ∀ u,
          Build.load g ws = .ok () u →
          (u.component g).child? first = (ws.component g).child? first := by
        intro g hg u hu
        have hafter := h hname first (by rw [hpieces]; rfl) g hg (by rw [Build.succeeds, hu])
        rwa [Build.after, hu] at hafter
      rw [lookUp_of_pieces hname hpieces, lookUp_of_pieces hname hpieces,
        hwarmed.nearest?_eq hs hstart hshown]
      cases hnearest : ws.nearest? start first with
      | none => exact rfl
      | some found =>
        refine (inStep_descend hs hundotted rest [first] (.refl ws) hwarmed
          (.known (hs.nearest?_lt hnearest))).mono ?_
        rintro _ _ t t' ⟨ht, ht', hagree⟩
        exact hagree.mono fun _ _ hsame => hsame.sameComponent hs hundotted ht ht'

/-- **A name of one segment is transparent only if it is disclosed**: a file that shows something else
once it is loaded gives it another answer. -/
theorem Transparent.discloses (h : ws.Transparent start name) (hs : ws.Sound) (hundotted : ws.Undotted)
    (hstart : start < ws.size) (hone : (pieces '.' name).length = 1) :
    ws.Discloses start name := by
  intro hname first hfirst g hg hsucceeds
  obtain ⟨_, hu⟩ := ok_of_succeeds hsucceeds
  generalize (load g).after ws = u at hu ⊢
  by_contra hdiffers
  have hpieces : pieces '.' name = [first] := by
    obtain ⟨only, hpieces⟩ := List.length_eq_one_iff.mp hone
    rw [hpieces] at hfirst ⊢
    cases hfirst
    rfl
  have hscope := mem_of_mem_climbed hg
  have hlt : g < ws.size := lt_of_le_of_lt (hs.le_of_mem_enclosing hscope) hstart
  have hpending : (ws.component g).pending?.isSome = true := by
    by_contra hno
    rw [load_of_pending?_eq_none (Option.not_isSome_iff_eq_none.mp hno)] at hu
    cases hu
    exact hdiffers rfl
  have hloading := loading_of_load hs hlt (hundotted _ hlt) hpending hu
  obtain ⟨y, hy, hchild⟩ := (hloading.child first).resolve_left hdiffers
  -- what loading made is now the nearest of its name, and it is new
  have hnearest : u.nearest? start first = some y := by
    have hreach := ((makes_load hlt).of_ok hs hu).1
    rw [nearest?, hreach.extension.enclosing_eq hs (hreach.sound hs) hstart]
    refine findSome?_of_new hg hchild fun scope hmem hne => ?_
    rw [hloading.others (lt_of_le_of_lt (hs.le_of_mem_enclosing hmem) hstart) hne]
  have hagree := h u (.single (.load hu))
  rw [lookUp_of_pieces hname hpieces, lookUp_of_pieces hname hpieces, hnearest] at hagree
  cases hold : ws.nearest? start first with
  | none =>
    rw [hold] at hagree
    exact hagree
  | some found =>
    rw [hold] at hagree
    have hfound := hs.nearest?_lt hold
    rcases hagree with ⟨-, heq⟩ | ⟨hle, -⟩
    · exact absurd (show y < ws.size from heq ▸ hfound) (Nat.not_lt.mpr hy)
    · exact absurd hfound (Nat.not_lt.mpr hle)

end

end Workspace

/-- **Names and the order of loading.** In every history, with sources that declare no dotted names: a
name that is disclosed has one answer, whatever files were loaded before it is asked for and whatever
was asked before; and a name of one segment that has one answer is disclosed. -/
theorem History.lookUp_transparent {A : Workspace → Call → Prop} {ws : Workspace} (h : History A ws)
    (hundotted : ws.Undotted) {start : ComponentId} (hstart : start < ws.size) (name : String) :
    (ws.Discloses start name → ws.Transparent start name) ∧
      ((pieces '.' name).length = 1 → ws.Transparent start name → ws.Discloses start name) := by
  have hs := h.sound
  exact ⟨fun hdiscloses => hdiscloses.transparent hs hundotted hstart,
    fun hone htransparent => htransparent.discloses hs hundotted hstart hone⟩

/-- The result of work, if it succeeds. -/
def Build.result? {α : Type} (m : Build α) (ws : Workspace) : Option α :=
  match m ws with
  | .ok a _ => some a
  | .error _ _ => none

/-- A name from a file that is not loaded into another one that is not: `h` has one number if it is
asked for at once and another one if the first file is loaded before, and is the same component. -/
theorem History.lookUp_transparent_nested :
    let disk : Disk := ⟨[(["f.light"], .file (.text "namespace n\n function h\n")),
      (["g.light"], .file (.text "function k\n"))], ⟨"/"⟩⟩
    let ws := Call.play [.registerProject "p" ⟨"/"⟩ ⟨"/o"⟩ .plain]
      (Workspace.new {} disk [.light, .cpp])
    let ws' := (Call.load 2).run.after ws
    History (fun _ _ => True) ws ∧ ws.Undotted ∧ ws.Discloses 2 "f.n.h" ∧
      (Build.lookUp 2 "f.n.h").result? ws = some (.found (.component 4)) ∧
      (Build.lookUp 2 "f.n.h").result? ws' = some (.found (.component 5)) ∧
      Build.InStep (fun r r' t t' => r.AgreeBy (ws.SameComponent t t') r')
        (Build.lookUp 2 "f.n.h" ws) (Build.lookUp 2 "f.n.h" ws') := by
  intro disk ws ws'
  have hhistory : History (fun _ _ => True) ws := .play (by decide +kernel)
  obtain ⟨hundotted, hdiscloses, hlt, hload, hanswers⟩ : ws.Undotted ∧ ws.Discloses 2 "f.n.h" ∧ 2 < ws.size ∧
      (Build.load 2).succeeds ws = true ∧
      (Build.lookUp 2 "f.n.h").result? ws = some (.found (.component 4)) ∧
      (Build.lookUp 2 "f.n.h").result? ws' = some (.found (.component 5)) := by decide +kernel
  obtain ⟨_, hload⟩ := ok_of_succeeds hload
  exact ⟨hhistory, hundotted, hdiscloses, hanswers.1, hanswers.2,
    (hhistory.lookUp_transparent hundotted hlt "f.n.h").1 hdiscloses _ (.single (.load hload))⟩

/-- A file that stands in the directory of another one, which declares what is asked for. The name is
missing until the other file is loaded. With a namespace that is named like its file, to ask once
loads the file, and to ask again gives another answer. -/
theorem lookUp_not_transparent :
    let skeleton (source : String) := Call.play [.registerProject "p" ⟨"/"⟩ ⟨"/o"⟩ .plain]
      (Workspace.new {} ⟨[(["f.light"], .file (.text source)), (["f"], .directory),
        (["f", "g.light"], .file (.text "function k\n"))], ⟨"/"⟩⟩ [.light, .cpp])
    let ws := skeleton "function h\n"
    let ws' := skeleton "namespace f\n function h\n"
    (History (fun _ _ => True) ws ∧ ws.Undotted ∧ (Build.load 1).succeeds ws = true ∧
      (Build.lookUp 2 "h").result? ws = some (.missing "h") ∧
      (Build.lookUp 2 "h").result? ((Build.load 1).after ws) = some (.found (.component 3))) ∧
    History (fun _ _ => True) ws' ∧ ws'.Undotted ∧
      (Build.lookUp 2 "f.h").result? ws' = some (.missing "f.h") ∧
      (Build.lookUp 2 "f.h").result? ((Build.lookUp 2 "f.h").after ws') =
        some (.found (.component 4)) := by
  refine ⟨⟨.play (by decide +kernel), ?_⟩, .play (by decide +kernel), ?_⟩
  · decide +kernel
  · decide +kernel

end LightHeaders
