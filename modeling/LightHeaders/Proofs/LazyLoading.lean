import LightHeaders.Proofs.LocalLoading

set_option autoImplicit false

/-! # Names before and after files are loaded

Files are loaded when a name leads into them, so what is there when a name is resolved depends on what
was asked before. A workspace that has been **warmed** differs from the one before only in what is
loaded (`Workspace.Warmed`): whatever was there is still there, and each file that has been loaded
since shows what it would have shown at once, under other numbers (`Workspace.Shows`). A name that is
resolved step by step in two such workspaces comes to the same component in both
(`Build.inStep_descend`).

The first segment of a name is looked for without loading. It is the one step that what is loaded can
change, and only if a file that the search comes to has yet to be loaded (`Workspace.Discloses`).
-/

namespace LightHeaders

open Text Workspace Component Build

/-! ## Warmed workspaces -/

theorem Component.pending?_of_still {c c' : Component} (h : c'.still = c.still) :
    c'.pending? = c.pending? := by
  have hview : ∀ c : Component, c.pending? =
      (c.file?.map SourceFile.still).bind fun f => if f.loaded then none else some f.path := by
    intro c
    rw [pending?]
    cases c.file? <;> rfl
  rw [hview, hview, file?_of_still h]

namespace Workspace

theorem Spares.pendingSource?_eq {ws s : Workspace} {g : ComponentId} (h : ws.Spares g s) :
    s.pendingSource? g = ws.pendingSource? g := by
  rw [pendingSource?, pendingSource?, pending?_of_still h.still, h.disk]

/-- `s` shows what loading `g` from `ws` on has led to with `u`, as if loaded from `base` on. -/
def Shows (ws : Workspace) (g : ComponentId) (u base s : Workspace) : Prop :=
  ws.size ≤ base.size ∧ ∀ x, x = g ∨ ws.size ≤ x → x < u.size →
    renumber ws.size base.size x < s.size ∧
      (s.component (renumber ws.size base.size x)).face = (u.component x).face.carry ws base

theorem Shows.after {ws s s' u base : Workspace} {f g : ComponentId} (h : ws.Shows g u base s)
    (hg : g < ws.size) (hf : f < ws.size) (hne : g ≠ f) (hload : s.Loading f s') :
    ws.Shows g u base s' := by
  refine ⟨h.1, fun x hx hlt => ?_⟩
  obtain ⟨hthere, hface⟩ := h.2 x hx hlt
  have hother : renumber ws.size base.size x ≠ f := by
    rcases hx with rfl | hx
    · rwa [renumber_of_lt hg]
    · exact Nat.ne_of_gt (lt_of_lt_of_le hf (le_trans h.1 (le_renumber hx)))
  rw [hload.others hthere hother]
  exact ⟨lt_of_lt_of_le hthere hload.size_le, hface⟩

/-- `s` differs from `ws` only in files that have been loaded since, and each of them shows what it
would have shown at once. -/
structure Warmed (ws s : Workspace) : Prop where
  reach : Reach (fun _ _ => True) ws s
  disk : s.disk = ws.disk
  readers : s.readers = ws.readers
  noFile : ∀ x, ws.size ≤ x → s.isFile x = false
  known : ∀ x < ws.size, (ws.component x).pending? = none →
    (s.component x).still = (ws.component x).still
  pending : ∀ g < ws.size, (ws.component g).pending?.isSome = true →
    (s.component g).still = (ws.component g).still ∨
    (s.component g).pending? = none ∧ ∃ u base, Build.load g ws = .ok () u ∧ ws.Shows g u base s

namespace Warmed

variable {ws s s' : Workspace} {g : ComponentId}

theorem refl (ws : Workspace) : ws.Warmed ws where
  reach := .refl _ ws
  disk := rfl
  readers := rfl
  noFile x hx := by
    rw [isFile, kind, component_of_size_le ws hx]
    rfl
  known _ _ _ := rfl
  pending _ _ _ := .inl rfl

theorem size_le (h : ws.Warmed s) : ws.size ≤ s.size := h.reach.extension.size_le

theorem spares (h : ws.Warmed s) (hpending : (s.component g).pending?.isSome = true) :
    (ws.component g).pending?.isSome = true ∧ ws.Spares g s := by
  have hfile : s.isFile g = true := by
    by_contra hno
    rw [pending?_eq_none (Bool.eq_false_iff.mpr hno)] at hpending
    cases hpending
  have hlt : g < ws.size := by
    by_contra hge
    rw [h.noFile g (Nat.not_lt.mp hge)] at hfile
    cases hfile
  have hwas : (ws.component g).pending?.isSome = true := by
    by_contra hno
    have hnone := Option.not_isSome_iff_eq_none.mp hno
    rw [pending?_of_still (h.known g hlt hnone), hnone] at hpending
    cases hpending
  refine ⟨hwas, hlt, h.size_le, ?_, h.disk, h.readers⟩
  rcases h.pending g hlt hwas with hstill | ⟨hnone, -⟩
  · exact hstill
  · rw [hnone] at hpending
    cases hpending

/-- **Loading a file warms**: one step. -/
theorem after (h : ws.Warmed s) {u : Workspace} (hwas : (ws.component g).pending?.isSome = true)
    (hcopying : ws.Copying s g u s') (hloading : s.Loading g s') (hu : Build.load g ws = .ok () u)
    (hreach : Reach (fun _ _ => True) s s') : ws.Warmed s' where
  reach := h.reach.trans hreach
  disk := hloading.disk.trans h.disk
  readers := hloading.readers.trans h.readers
  noFile x hx := by
    by_cases hlt : x < s.size
    · rw [isFile, kind, hloading.others hlt
        (Nat.ne_of_gt (lt_of_lt_of_le hcopying.there hx))]
      exact h.noFile x hx
    · by_cases hlt' : x < s'.size
      · exact (hloading.new (Nat.not_lt.mp hlt) hlt').noFile
      · rw [isFile, kind, component_of_size_le s' (Nat.not_lt.mp hlt')]
        rfl
  known x hx hnone := by
    have hne : x ≠ g := by
      rintro rfl
      rw [hnone] at hwas
      cases hwas
    rw [hloading.others (lt_of_lt_of_le hx h.size_le) hne]
    exact h.known x hx hnone
  pending f hf hwas := by
    by_cases hfg : f = g
    · subst hfg
      refine .inr ⟨hloading.marked, u, s, hu, h.size_le, fun x hx hlt => ?_⟩
      exact ⟨hcopying.lt hlt, hcopying.face x hx hlt⟩
    · rw [hloading.others (lt_of_lt_of_le hf h.size_le) hfg]
      refine (h.pending f hf hwas).imp id ?_
      rintro ⟨hmarked, u', base, hu', hshows⟩
      exact ⟨hmarked, u', base, hu', hshows.after hf hcopying.there hfg hloading⟩

theorem load (h : ws.Warmed s) (hs : ws.Sound) (hundotted : ws.Undotted)
    (hload : Build.load g s = .ok () s') : ws.Warmed s' := by
  cases hpending : (s.component g).pending?.isSome with
  | false =>
    have hnone := Option.isNone_iff_eq_none.mp (Option.isSome_eq_false_iff.mp hpending)
    rw [load_of_pending?_eq_none hnone] at hload
    cases hload
    exact h
  | true =>
    obtain ⟨hwas, hspares⟩ := h.spares hpending
    have hsound := h.reach.sound hs
    have hstep := inStep_load hspares hs hsound hundotted hwas
    rw [hload] at hstep
    cases hu : Build.load g ws with
    | error e u =>
      rw [hu] at hstep
      exact hstep.elim
    | ok _ u =>
      rw [hu] at hstep
      have hlt := lt_of_lt_of_le hspares.there h.size_le
      have hreach := ((makes_load hlt).of_ok hsound hload).1.mono fun _ _ _ => trivial
      have hloading := loading_of_load hsound hlt
        (hspares.pendingSource?_eq ▸ hundotted g hspares.there) hpending hload
      exact h.after hwas hstep hloading hu hreach

/-- **A file that was to be read is loaded as it would have been at once**, or has been so already. -/
theorem load_eq (h : ws.Warmed s) (hs : ws.Sound) (hundotted : ws.Undotted) (hg : g < ws.size)
    (hwas : (ws.component g).pending?.isSome = true) :
    match Build.load g ws with
    | .ok _ u => ∃ s' base, Build.load g s = .ok () s' ∧ ws.Warmed s' ∧ ws.Shows g u base s'
    | .error e _ => ∃ s', Build.load g s = .error e s' := by
  rcases h.pending g hg hwas with hstill | ⟨hmarked, u, base, hu, hshows⟩
  · have hspares : ws.Spares g s := ⟨hg, h.size_le, hstill, h.disk, h.readers⟩
    have hstep := inStep_load hspares hs (h.reach.sound hs) hundotted hwas
    cases hu : Build.load g ws with
    | ok _ u =>
      cases hload : Build.load g s with
      | ok _ s' =>
        rw [hu, hload] at hstep
        exact ⟨s', s, rfl, h.load hs hundotted hload, h.size_le, fun x hx hlt =>
          ⟨hstep.lt hlt, hstep.face x hx hlt⟩⟩
      | error e s' =>
        rw [hu, hload] at hstep
        exact hstep.elim
    | error e u =>
      cases hload : Build.load g s with
      | ok _ s' =>
        rw [hu, hload] at hstep
        exact hstep.elim
      | error e' s' =>
        rw [hu, hload] at hstep
        exact ⟨s', by rw [show e = e' from hstep]⟩
  · rw [hu]
    exact ⟨s, base, load_of_pending?_eq_none hmarked, h, hshows⟩

end Warmed

/-! ## The same component -/

/-- `x₁` in `s₁` and `x₂` in `s₂` are one and the same: a component of `ws`, or what loading a file
from `ws` on makes. -/
inductive Same (ws s₁ s₂ : Workspace) : ComponentId → ComponentId → Prop
  | known {x : ComponentId} (lt : x < ws.size) : Same ws s₁ s₂ x x
  | made {g x : ComponentId} {u base₁ base₂ : Workspace} (there : g < ws.size)
      (pending : (ws.component g).pending?.isSome = true) (load : Build.load g ws = .ok () u)
      (left : ws.Shows g u base₁ s₁) (right : ws.Shows g u base₂ s₂) (new : ws.size ≤ x)
      (lt : x < u.size) :
      Same ws s₁ s₂ (renumber ws.size base₁.size x) (renumber ws.size base₂.size x)

/-- Nothing, or the same component, in both. -/
def SameIfAny (ws s₁ s₂ : Workspace) : Option ComponentId → Option ComponentId → Prop
  | some x₁, some x₂ => ws.Same s₁ s₂ x₁ x₂
  | none, none => True
  | _, _ => False

section

variable {ws u s s₁ s₂ base base₁ base₂ : Workspace} {g x : ComponentId}

theorem Shows.child? (h : ws.Shows g u base s) (hx : x = g ∨ ws.size ≤ x) (hlt : x < u.size)
    (name : String) : (s.component (renumber ws.size base.size x)).child? name =
      ((u.component x).child? name).map (renumber ws.size base.size) :=
  congrFun (congrArg Face.child? (h.2 x hx hlt).2) name

/-- What was there is the same in both, and what is new corresponds. -/
theorem sameIfAny_of_shows (hs : u.Sound) (hg : g < ws.size)
    (hpending : (ws.component g).pending?.isSome = true) (hload : Build.load g ws = .ok () u)
    (h₁ : ws.Shows g u base₁ s₁) (h₂ : ws.Shows g u base₂ s₂) (hx : x = g ∨ ws.size ≤ x) (hlt : x < u.size)
    (name : String) :
    ws.SameIfAny s₁ s₂ ((s₁.component (renumber ws.size base₁.size x)).child? name)
      ((s₂.component (renumber ws.size base₂.size x)).child? name) := by
  rw [h₁.child? hx hlt, h₂.child? hx hlt]
  cases hchild : (u.component x).child? name with
  | none => exact trivial
  | some y =>
    show ws.Same s₁ s₂ (renumber ws.size base₁.size y) (renumber ws.size base₂.size y)
    by_cases hy : y < ws.size
    · rw [renumber_of_lt hy, renumber_of_lt hy]
      exact .known hy
    · exact .made hg hpending hload h₁ h₂ (Nat.not_lt.mp hy) (hs.lt_of_child? hchild)

end

end Workspace

namespace Build

variable {ws s₁ s₂ : Workspace}

theorem sound_of_load {u : Workspace} {g : ComponentId} (hs : ws.Sound) (hg : g < ws.size)
    (h : load g ws = .ok () u) : u.Sound :=
  ((makes_load hg).of_ok hs h).1.sound hs

/-- **A component is entered in step**: if it is a file, it is loaded; then it has the same children
in both. -/
theorem inStep_enter (hs : ws.Sound) (hundotted : ws.Undotted) (h₁ : ws.Warmed s₁) (h₂ : ws.Warmed s₂)
    {x₁ x₂ : ComponentId} (hsame : ws.Same s₁ s₂ x₁ x₂) :
    InStep (fun _ _ t₁ t₂ => ws.Warmed t₁ ∧ ws.Warmed t₂ ∧ ∀ name,
        ws.SameIfAny t₁ t₂ ((t₁.component x₁).child? name) ((t₂.component x₂).child? name))
      (load x₁ s₁) (load x₂ s₂) := by
  cases hsame with
  | known hlt =>
    cases hpending : (ws.component x₁).pending?.isSome with
    | false =>
      have hnone := Option.isNone_iff_eq_none.mp (Option.isSome_eq_false_iff.mp hpending)
      have hstill₁ := h₁.known x₁ hlt hnone
      have hstill₂ := h₂.known x₁ hlt hnone
      rw [load_of_pending?_eq_none ((pending?_of_still hstill₁).trans hnone),
        load_of_pending?_eq_none ((pending?_of_still hstill₂).trans hnone)]
      refine ⟨h₁, h₂, fun name => ?_⟩
      rw [show (s₁.component x₁).child? name = (ws.component x₁).child? name from
          congrFun (congrArg Face.child? (face_of_still hstill₁)) name,
        show (s₂.component x₁).child? name = (ws.component x₁).child? name from
          congrFun (congrArg Face.child? (face_of_still hstill₂)) name]
      cases hchild : (ws.component x₁).child? name with
      | none => exact trivial
      | some y => exact Workspace.Same.known (hs.lt_of_child? hchild)
    | true =>
      have hload₁ := h₁.load_eq hs hundotted hlt hpending
      have hload₂ := h₂.load_eq hs hundotted hlt hpending
      cases hu : load x₁ ws with
      | error e u =>
        rw [hu] at hload₁ hload₂
        obtain ⟨t₁, ht₁⟩ := hload₁
        obtain ⟨t₂, ht₂⟩ := hload₂
        rw [ht₁, ht₂]
        exact rfl
      | ok _ u =>
        rw [hu] at hload₁ hload₂
        obtain ⟨t₁, base₁, ht₁, hwarmed₁, hshows₁⟩ := hload₁
        obtain ⟨t₂, base₂, ht₂, hwarmed₂, hshows₂⟩ := hload₂
        rw [ht₁, ht₂]
        refine ⟨hwarmed₁, hwarmed₂, fun name => ?_⟩
        have husound := sound_of_load hs hlt hu
        have hthere := ((makes_load hlt).of_ok hs hu).1.lt hlt
        have hchild := sameIfAny_of_shows husound hlt hpending hu hshows₁ hshows₂
          (.inl rfl) hthere name
        rwa [renumber_of_lt hlt, renumber_of_lt hlt] at hchild
  | made there pending hu left right new lt =>
    -- what is made by loading is no file, so there is nothing to load
    have hnone : ∀ {s base : Workspace}, ws.Warmed s → ws.size ≤ base.size → ∀ {x : ComponentId},
        ws.size ≤ x → (s.component (renumber ws.size base.size x)).pending? = none :=
      fun h hle _ hx => pending?_eq_none (h.noFile _ (le_trans hle (le_renumber hx)))
    rw [load_of_pending?_eq_none (hnone h₁ left.1 new),
      load_of_pending?_eq_none (hnone h₂ right.1 new)]
    exact ⟨h₁, h₂, sameIfAny_of_shows (sound_of_load hs there hu) there pending hu left
      right (.inr new) lt⟩

theorem descend_cons (found : ComponentId) (read : List String) (segment : String) (rest : List String)
    (s : Workspace) : descend load found read (segment :: rest) s =
      (load found >>= fun _ => component found >>= fun c =>
        match c.child? segment with
        | some child => descend load child (read ++ [segment]) rest
        | none => return .missing (glue "." (read ++ [segment]))) s := by
  show (if s.isFile found then load found >>= fun _ => _ else _) s = _
  split
  · rfl
  · next hfile =>
    refine Eq.trans ?_ (bind_of_ok (load_of_pending?_eq_none
      (pending?_eq_none (Bool.eq_false_iff.mpr hfile)))).symm
    rfl

end Build

/-- The resolutions are the same, if `R` says when components are. -/
def Resolution.AgreeBy (R : ComponentId → ComponentId → Prop) : Resolution → Resolution → Prop
  | .found (.component x), .found (.component y) => R x y
  | .found (.native f), .found (.native f') => f = f'
  | .missing path, .missing path' => path = path'
  | _, _ => False

theorem Resolution.AgreeBy.mono {R R' : ComponentId → ComponentId → Prop} (hR : ∀ x y, R x y → R' x y)
    {r r' : Resolution} (h : r.AgreeBy R r') : r.AgreeBy R' r' := by
  rcases r with ⟨x | f⟩ | path <;> rcases r' with ⟨y | f'⟩ | path'
  · exact hR x y h
  all_goals exact h

namespace Build

variable {ws s s₁ s₂ : Workspace}

/-- **A name leads down to the same component**, whichever files were loaded before. -/
theorem inStep_descend (hs : ws.Sound) (hundotted : ws.Undotted) (segments : List String)
    {x₁ x₂ : ComponentId} (read : List String) (h₁ : ws.Warmed s₁) (h₂ : ws.Warmed s₂)
    (hsame : ws.Same s₁ s₂ x₁ x₂) :
    InStep (fun r₁ r₂ t₁ t₂ => ws.Warmed t₁ ∧ ws.Warmed t₂ ∧ r₁.AgreeBy (ws.Same t₁ t₂) r₂)
      (descend load x₁ read segments s₁) (descend load x₂ read segments s₂) := by
  induction segments generalizing s₁ s₂ x₁ x₂ read with
  | nil => exact ⟨h₁, h₂, hsame⟩
  | cons segment rest ih =>
    rw [descend_cons, descend_cons]
    refine (inStep_enter hs hundotted h₁ h₂ hsame).bind ?_
    rintro _ _ t₁ t₂ ⟨hwarmed₁, hwarmed₂, hchildren⟩
    refine InStep.component ?_
    have hchild := hchildren segment
    cases hleft : (t₁.component x₁).child? segment with
    | none =>
      cases hright : (t₂.component x₂).child? segment with
      | none => exact ⟨hwarmed₁, hwarmed₂, rfl⟩
      | some y₂ =>
        rw [hleft, hright] at hchild
        exact hchild.elim
    | some y₁ =>
      cases hright : (t₂.component x₂).child? segment with
      | none =>
        rw [hleft, hright] at hchild
        exact hchild.elim
      | some y₂ =>
        rw [hleft, hright] at hchild
        exact ih (read ++ [segment]) hwarmed₁ hwarmed₂ hchild

/-! ## Resolving warms -/

theorem warmed_noting (h : ws.Warmed s) (start : ComponentId) (function : CFunction) :
    ws.Warmed (s.noting start (.native function)) := by
  rw [Workspace.noting]
  split
  · next file _ =>
    -- a library that is noted is nothing that loading looks at
    have hstill : ∀ x, (((Change.edit file (.file (.library function.library))).apply s).component
        x).still = (s.component x).still := by
      refine modify_keeps s file Component.still fun c => ?_
      rw [Edit.apply, Component.still, Component.still]
      cases c.kind with
      | file f =>
        simp only [Kind.mapFile, Kind.still, FileEdit.apply]
        split <;> rfl
      | _ => rfl
    have hface := fun x => face_of_still (hstill x)
    have hsize : ((Change.edit file (.file (.library function.library))).apply s).size = s.size :=
      Workspace.size_modify s file _
    refine ⟨h.reach.trans (.single _ trivial trivial), h.disk, h.readers, ?_, ?_, ?_⟩
    · intro x hx
      have hkept := modify_keeps s file (·.kind.isFile)
        (fun c => Edit.apply_isFile (.file (.library function.library)) c) x
      exact hkept.trans (h.noFile x hx)
    · intro x hx hnone
      rw [hstill]
      exact h.known x hx hnone
    · intro g hg hpending
      rw [hstill]
      refine (h.pending g hg hpending).imp id ?_
      rintro ⟨hmarked, u, base, hu, hle, hshows⟩
      refine ⟨(pending?_of_still (hstill g)).trans hmarked, u, base, hu, hle,
        fun x hx hlt => ?_⟩
      rw [hsize, hface]
      exact hshows x hx hlt
  · exact h

variable {start : ComponentId} {r : Resolution} {name : String}

variable {s' : Workspace}

theorem warmed_descend (hs : ws.Sound) (hundotted : ws.Undotted) (segments : List String)
    {found : ComponentId} {read : List String} (h : ws.Warmed s)
    (hrun : descend load found read segments s = .ok r s') : ws.Warmed s' := by
  induction segments generalizing s found read with
  | nil =>
    cases hrun
    exact h
  | cons segment rest ih =>
    rw [descend_cons] at hrun
    obtain ⟨_, t, hload, hrun⟩ := exists_of_bind_eq_ok hrun
    have hwarmed := h.load hs hundotted hload
    change (match (t.component found).child? segment with
      | some child => descend load child (read ++ [segment]) rest
      | none => return .missing (glue "." (read ++ [segment])) : Build Resolution) t = _ at hrun
    cases hchild : (t.component found).child? segment with
    | none =>
      rw [hchild] at hrun
      cases hrun
      exact hwarmed
    | some child =>
      rw [hchild] at hrun
      exact ih hwarmed hrun

/-- A name that stands for no native function is looked for, and then followed down. -/
theorem lookUp_of_pieces {first : String} {rest : List String} (hname : cFunctionOf? (pieces '.' name) = none)
    (hpieces : pieces '.' name = first :: rest) :
    lookUp start name s = (match s.nearest? start first with
      | none => return .missing first
      | some found => descend load found [first] rest : Build Resolution) s := by
  rw [lookUp, lookUpWith]
  simp only [hname]
  rw [hpieces]
  rfl

/-- **Resolving a name warms.** -/
theorem warmed_lookUp (hs : ws.Sound) (hundotted : ws.Undotted) (h : ws.Warmed s)
    (hrun : lookUp start name s = .ok r s') : ws.Warmed s' := by
  rw [lookUp] at hrun
  cases hname : cFunctionOf? (pieces '.' name) with
  | some function =>
    rw [lookUp_native hname] at hrun
    cases hrun
    exact warmed_noting h start function
  | none =>
    cases hpieces : pieces '.' name with
    | nil =>
      simp only [lookUpWith, hpieces] at hrun
      cases hrun
      exact h
    | cons first rest =>
      rw [← lookUp, lookUp_of_pieces hname hpieces] at hrun
      cases hnearest : s.nearest? start first with
      | none =>
        rw [hnearest] at hrun
        cases hrun
        exact h
      | some found =>
        rw [hnearest] at hrun
        exact warmed_descend hs hundotted rest h hrun

end Build

end LightHeaders
