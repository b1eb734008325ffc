import LightHeaders.Proofs.Histories

set_option autoImplicit false

/-! # The projects that own files

The root of a tree of files can belong to a project, and the project says how paths in that tree are
spelled. A project is registered with a tree of its own, in which no header was asked for yet. So the
spelling of a path that is decided never changes (`Reach.decided_spelling`), as long as files are made only
for what is at a path.
-/

namespace LightHeaders

open Workspace

/-! ## New files -/

/-- Of a file of that kind nothing is known but what is at its path. -/
def Kind.Blank (k : Kind) : Prop :=
  ∀ f, k.file? = some f → f = { path := f.path, isDirectory := f.isDirectory }

theorem Kind.blank_of_isFile {k : Kind} (h : k.isFile = false) : k.Blank := by
  intro f hf
  rw [Kind.isFile, hf] at h
  cases h

section Works

variable {F H : Prop} {ws ws' : Workspace} {c : Change}

theorem Works.blank {K : Kind → Prop} (hK : ∀ k, K k → k.NoFile) (h : Works K F H ws c) {kind : Kind}
    (hnew : c.newKind? = some kind) : kind.Blank := by
  cases h with
  | emit mem => exact Kind.blank_of_isFile (mem.noFile hnew)
  | plan mem =>
    obtain ⟨path, rfl⟩ := mem.newKind? hnew
    rintro _ ⟨⟩
    rfl
  | root _ _ given | below _ _ _ _ given =>
    cases hnew
    exact Kind.blank_of_isFile (hK _ given)
  | _ => cases hnew

/-! ## Owners -/

/-- The projects that files belong to are there. -/
def Workspace.Owned (ws : Workspace) : Prop :=
  ∀ id p, ws.projectOf? id = some p → p < ws.projects.size

theorem Change.project_apply (c : Change) {p : ProjectId} (hp : p < ws.projects.size) :
    p < (c.apply ws).projects.size ∧ (c.apply ws).project p = ws.project p := by
  cases c with
  | project q =>
    have hlt : p < ws.projects.size + 1 := Nat.lt_succ_of_lt hp
    simp only [apply, Workspace.project, Array.getD_eq_getD_getElem?, Array.size_push]
    exact ⟨hlt, by rw [Array.getElem?_push_lt hp, Array.getElem?_eq_getElem hp]⟩
  | _ => exact ⟨hp, rfl⟩

theorem Works.projectOf?_apply (h : Works Kind.NoFile F H ws c) (legal : c.Legal ws) (id : ComponentId) :
    (c.apply ws).projectOf? id = ws.projectOf? id ∨
      (∃ p, (c.apply ws).projectOf? id = some p ∧ p < ws.projects.size) ∧
        ∀ file, ws.Decided file → ws.outermost file ≠ id := by
  rw [projectOf?, projectOf?]
  rcases c.file?_apply legal id with heq | ⟨hsize, kind, hnew, heq⟩ | ⟨-, g, rfl, heq⟩
  · rw [heq]
    exact .inl rfl
  · left
    rw [heq, ws.component_of_size_le (le_of_eq hsize.symm)]
    cases hfile : kind.file? with
    | none => rfl
    | some f =>
      rw [h.blank (fun _ hk => hk) hnew f hfile]
      rfl
  · rw [heq]
    cases hfile : (ws.component id).file? with
    | none => exact .inl rfl
    | some f =>
      rcases g.project?_apply f with hsame | ⟨p, rfl, hp⟩
      · exact .inl hsame
      · obtain ⟨there, new⟩ := h.licensed
        exact .inr ⟨⟨p, hp, there⟩, new⟩

theorem Works.owned_apply (h : Works Kind.NoFile F H ws c) (legal : c.Legal ws) (howned : ws.Owned) :
    (c.apply ws).Owned := by
  intro id p hp
  refine (c.project_apply ?_).1
  rcases h.projectOf?_apply legal id with heq | ⟨⟨q, hq, hlt⟩, -⟩
  · exact howned id p (heq ▸ hp)
  · rw [hq] at hp
    cases hp
    exact hlt

theorem Change.outermost_apply (c : Change) (hs : ws.Sound) (legal : c.Legal ws) {id : ComponentId}
    (hid : id < ws.size) : (c.apply ws).outermost id = ws.outermost id := by
  rw [outermost, outermost,
    (c.extends_apply legal).enclosing_eq hs (hs.apply c legal) hid]

variable {file : ComponentId} {p : Path}

theorem Works.owner?_apply (h : Works Kind.NoFile F H ws c) (hs : ws.Sound) (legal : c.Legal ws)
    (hdecided : ws.Decided file) :
    (c.apply ws).owner? file = ws.owner? file := by
  rw [owner?, c.outermost_apply hs legal (lt_size_of_isFile hdecided.isFile)]
  rcases h.projectOf?_apply legal (ws.outermost file) with heq | ⟨-, hnew⟩
  · exact heq
  · exact absurd rfl (hnew file hdecided)

/-- **The path of a file that is decided is spelled the same after a change.** -/
theorem Works.spellingOf_apply (h : Works Kind.NoFile F H ws c) (hs : ws.Sound) (legal : c.Legal ws)
    (howned : ws.Owned) (hdecided : ws.Decided file) :
    (c.apply ws).spellingOf file = ws.spellingOf file := by
  rw [spellingOf, spellingOf, h.owner?_apply hs legal hdecided]
  cases hp : ws.owner? file with
  | none => rfl
  | some p =>
    have hproject := (c.project_apply (howned _ p hp)).2
    rw [Option.map_some, Option.map_some, hproject]

/-- Calls decide no file anew. -/
theorem Works.output?_eq (h : Works Kind.NoFile F H ws c) (legal : c.Legal ws)
    (hp : ws.output? file = some p) : (c.apply ws).output? file = some p := by
  have hlt : file < ws.size := Nat.lt_of_not_le fun hle => by
    rw [output?, ws.component_of_size_le hle] at hp
    cases hp
  rcases ws.output?_apply c legal hlt with heq | ⟨q, rfl, -⟩
  · exact heq.trans hp
  · cases h with
    | emit mem => exact mem.output?_eq legal hp
    | plan mem =>
      obtain ⟨_, hedit, -⟩ := mem.edit
      cases hedit

/-- **The output path of a file stays, and so does its spelling.** -/
theorem Reach.decided_spelling (h : Reach (Works Kind.NoFile F H) ws ws') (hs : ws.Sound) (howned : ws.Owned)
    (hp : ws.output? file = some p) :
    ws'.output? file = some p ∧ ws'.spellingOf file = ws.spellingOf file := by
  refine (h.invariant (I := fun ws' => ws'.Owned ∧ ws'.output? file = some p ∧
    ws'.spellingOf file = ws.spellingOf file) hs ⟨howned, hp, rfl⟩ ?_).2
  rintro next c hs' legal hc ⟨howned', hp', hspelling⟩
  exact ⟨hc.owned_apply legal howned', hc.output?_eq legal hp',
    (hc.spellingOf_apply hs' legal howned' (decided_of_output? hp')).trans hspelling⟩

end Works

theorem History.owned {A : Workspace → Call → Prop} {ws : Workspace} (h : History A ws)
    (hA : ∀ ws c, A ws c → c.Filed) : ws.Owned := by
  refine h.invariant (fun ws c hc => (hA ws c hc).brings) (fun settings disk readers id p hp => ?_)
    fun _ _ _ legal hc howned => hc.owned_apply legal howned
  rw [projectOf?, component_new] at hp
  cases hp

end LightHeaders
