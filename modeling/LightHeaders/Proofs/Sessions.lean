import LightHeaders.Proofs.Owners

set_option autoImplicit false

/-! # Sessions

In a **session** projects are registered and entries are compiled, and nothing else is asked of a
workspace. Files are made then for what is asked for on the way to an entry and for what is found in
directories. So one can tell where a file stands from the names above it (`Workspace.Mapped`).
-/

namespace LightHeaders

/-! ## What is found is in its place -/

section Finds

variable {d : Disk} {dir path : Path} {name : String}

theorem Disk.Finds.isAbsolute (h : d.Finds dir name path) (hdir : dir.isAbsolute = true) :
    path.isAbsolute = true := by
  cases h <;> rw [Path.isAbsolute_join, hdir, Bool.or_true]

/-- **What is found in a directory is in its place there.** -/
theorem Disk.Finds.at (hnamed : d.Named) (h : d.Finds dir name path) :
    SourceFile.At { path, isDirectory := d.isDirectory path } dir name := by
  cases h with
  | source listed mem isFile isSource =>
    obtain ⟨stem, ext, l, hstem, hs, hl⟩ :=
      Path.exists_of_isSource (Disk.isName_of_mem_names hnamed listed mem) isSource
    obtain ⟨content, hstat⟩ := Disk.isFile_iff.mp isFile
    refine .inr ⟨?_, ext, l, hl, ?_⟩
    · show d.isDirectory (dir.join ⟨_⟩) = false
      rw [Disk.isDirectory, hstat]
    · rw [hstem, Option.getD_some, ← hs]
  | directory => exact .inl rfl

end Finds

theorem SourceFile.family_isAbsolute {f : SourceFile} (h : f.path.isAbsolute = true) :
    f.family.isAbsolute = true := by
  rw [family]
  split
  · exact h
  · exact Path.isAbsolute_withExtension h ""

/-! ## The changes of a session -/

/-- The changes that a session makes. Where `B` holds paths are absolute, where `E` holds entries are
plain, and the disk is changed from outside only into one for which that makes sense. -/
inductive Serves (B E : Prop) (S : Spelling → Prop) (F H : Prop) (ws : Workspace) : Change → Prop
  | emit {D : ComponentId → Prop} {c : Change} (mem : Emits F False H D ws c) : Serves B E S F H ws c
  | plan {c : Change} (mem : Plans B E S ws c) : Serves B E S F H ws c
  | disk {d : Disk} (absolute : B → d.current.isAbsolute = true) (named : E → d.Named) :
      Serves B E S F H ws (.disk d)

/-- What is known of files and projects in a session. -/
structure Workspace.Mapped (B E : Prop) (S : Spelling → Prop) (ws : Workspace) : Prop where
  current : B → ws.disk.current.isAbsolute = true
  named : E → ws.disk.Named
  absolute : B → ∀ id f, (ws.component id).file? = some f → f.path.isAbsolute = true
  rooted : B → ∀ id < ws.projects.size, ws.Rooted B E (ws.project id)
  spelled : ∀ id < ws.projects.size, S (ws.project id).spelling
  placed : E → ws.Placed

section Serves

variable {B E F H : Prop} {S : Spelling → Prop} {ws ws' : Workspace} {c : Change}

theorem Workspace.Asked.weaken {parent? : Option ComponentId} {name : String} {path : Path}
    (h : ws.Asked B E parent? name path) : ws.Asked False False parent? name path := by
  cases parent? <;> exact ⟨False.elim, False.elim⟩

theorem Workspace.Rooted.weaken {p : Project} (h : ws.Rooted B E p) : ws.Rooted False False p := by
  obtain ⟨f, hf, hpath, -⟩ := h.file
  exact ⟨False.elim, h.top, f, hf, hpath, False.elim⟩

theorem Plans.weaken (h : Plans B E S ws c) : Plans False False (fun _ => True) ws c := by
  cases h with
  | asked asked => exact .asked asked.weaken
  | found file found => exact .found file found
  | project rooted => exact .project rooted.weaken trivial
  | owned there new => exact .owned there new
  | active id? => exact .active id?

theorem Serves.works {K : Kind → Prop} (h : Serves B E S F H ws c) : Works K F H ws c := by
  cases h with
  | emit mem => exact .emit mem
  | plan mem => exact .plan mem.weaken
  | disk => exact .disk _

/-- How a file comes to be made: it is asked for, or found in the family of the file above it. -/
def Workspace.Sited (B E : Prop) (ws : Workspace) (parent? : Option ComponentId) (name : String)
    (path : Path) : Prop :=
  ws.Asked B E parent? name path ∨
    ∃ parent f, parent? = some parent ∧ (ws.component parent).file? = some f ∧
      ws.disk.Finds f.family name path

/-- **A new file of a session** was asked for or found. -/
theorem Serves.new_file (h : Serves B E S F H ws c) (legal : c.Legal ws) {id : ComponentId} {f : SourceFile}
    (hf : ((c.apply ws).component id).file? = some f) (hid : ¬id < ws.size) :
    id = ws.size ∧ ∃ path, f = ws.fileFor path ∧
      ws.Sited B E ((c.apply ws).component id).parent? ((c.apply ws).component id).name path := by
  -- only planning adds a file
  have hplan : ∀ kind, c.newKind? = some kind → kind.file? = some f → Plans B E S ws c := by
    intro kind hkind hfile
    cases h with
    | emit mem =>
      have hno := mem.noFile hkind
      rw [Kind.isFile, hfile] at hno
      cases hno
    | plan mem => exact mem
    | disk => cases hkind
  rcases c.component_apply legal id with heq | ⟨hsize, name, kind, rfl, heq⟩ |
    ⟨hsize, parent, name, kind, instruction?, rfl, heq⟩ | ⟨hlt, -⟩ | ⟨hlt, -⟩
  · rw [heq, ws.component_of_size_le (Nat.le_of_not_lt hid)] at hf
    cases hf
  · rw [heq] at hf ⊢
    generalize hc : Change.root name kind = c at hplan
    cases hplan kind (by rw [← hc]; rfl) hf with
    | @asked parent? name path asked =>
      cases parent? with
      | none =>
        cases hc
        cases hf
        exact ⟨hsize, path, rfl, .inl asked⟩
      | some parent => cases hc
    | found => cases hc
    | _ => cases hc
  · rw [heq] at hf ⊢
    generalize hc : Change.below parent name kind instruction? = c at hplan
    cases hplan kind (by rw [← hc]; rfl) hf with
    | @asked parent? name path asked =>
      cases parent? with
      | none => cases hc
      | some parent =>
        cases hc
        cases hf
        exact ⟨hsize, path, rfl, .inl asked⟩
    | @found parent g name path file found =>
      cases hc
      cases hf
      exact ⟨hsize, path, rfl, .inr ⟨parent, g, rfl, file, found⟩⟩
    | _ => cases hc
  · exact absurd hlt hid
  · exact absurd hlt hid

theorem Serves.absolute_apply (h : Serves B E S F H ws c) (legal : c.Legal ws) (hB : B)
    (hmapped : ws.Mapped B E S) (id : ComponentId) (f : SourceFile)
    (hf : ((c.apply ws).component id).file? = some f) : f.path.isAbsolute = true := by
  by_cases hid : id < ws.size
  · obtain ⟨g, hg, hpath, -⟩ := file?_of_spot (c.spot_apply legal hid).symm hf
    rw [← hpath]
    exact hmapped.absolute hB id g hg
  · obtain ⟨-, path, rfl, hasked | ⟨parent, g, -, hg, hfound⟩⟩ := h.new_file legal hf hid
    · revert hasked
      cases ((c.apply ws).component id).parent? with
      | none => exact fun hasked => (hasked.1 hB).1
      | some parent => exact fun hasked => hasked.1 hB
    · exact hfound.isAbsolute (SourceFile.family_isAbsolute (hmapped.absolute hB parent g hg))

/-- **A new project of a session** has a root and spells paths as is allowed. -/
theorem Serves.new_project (h : Serves B E S F H ws c) {id : ProjectId}
    (hid : id < (c.apply ws).projects.size) (hold : ¬id < ws.projects.size) :
    (c.apply ws).Rooted B E ((c.apply ws).project id) ∧ S ((c.apply ws).project id).spelling := by
  -- only one change makes a project
  have hnew : ∀ p, c = .project p → ws.Rooted B E p ∧ S p.spelling := by
    rintro p rfl
    cases h with
    | emit mem =>
      cases mem with
      | settle mem => cases mem with | load mem => cases mem
    | plan mem =>
      generalize hc : Change.project p = c at mem
      cases mem with
      | @asked parent? => cases parent? <;> cases hc
      | found => cases hc
      | project rooted spelled =>
        cases hc
        exact ⟨rooted, spelled⟩
      | _ => cases hc
  cases c with
  | project p =>
    obtain ⟨hrooted, hspelled⟩ := hnew p rfl
    have hlast : id = ws.projects.size := by
      have hlt : id < ws.projects.size + 1 := by simpa [Change.apply] using hid
      exact le_antisymm (Nat.le_of_lt_succ hlt) (Nat.le_of_not_lt hold)
    have hproject : ((Change.project p).apply ws).project id = p := by
      simp [hlast, Change.apply, Workspace.project]
    rw [hproject]
    exact ⟨hrooted.of_spot rfl, hspelled⟩
  | _ => exact absurd hid hold

theorem Serves.rooted_apply (h : Serves B E S F H ws c) (legal : c.Legal ws) (hB : B)
    (hmapped : ws.Mapped B E S) (id : ProjectId) (hid : id < (c.apply ws).projects.size) :
    (c.apply ws).Rooted B E ((c.apply ws).project id) := by
  by_cases hold : id < ws.projects.size
  · rw [(c.project_apply hold).2]
    have hrooted := hmapped.rooted hB id hold
    obtain ⟨f, hf, -⟩ := hrooted.file
    exact hrooted.of_spot (c.spot_apply legal (Workspace.lt_size_of_isFile (Workspace.isFile_of_file? hf)))
  · exact (h.new_project hid hold).1

theorem Serves.spelled_apply (h : Serves B E S F H ws c) (hmapped : ws.Mapped B E S) (id : ProjectId)
    (hid : id < (c.apply ws).projects.size) : S ((c.apply ws).project id).spelling := by
  by_cases hold : id < ws.projects.size
  · rw [(c.project_apply hold).2]
    exact hmapped.spelled id hold
  · exact (h.new_project hid hold).2

/-- **Files stay in their places.** -/
theorem Serves.placed_apply (h : Serves B E S F H ws c) (hs : ws.Sound) (legal : c.Legal ws) (hE : E)
    (hmapped : ws.Mapped B E S) : (c.apply ws).Placed := by
  intro id f parent dir hf hparent hstands hplain
  have hs' := hs.apply c legal
  -- what is above was there before, and stood where it stands now
  have hbefore : parent < ws.size → ws.Stands parent dir := fun hlt =>
    hstands.of_spot hs' fun other hother => (c.spot_apply legal (lt_of_le_of_lt hother hlt)).symm
  have habove := hs'.parent_lt hparent
  by_cases hid : id < ws.size
  · have hspot := c.spot_apply legal hid
    obtain ⟨g, hg, hpath, hdirectory⟩ := file?_of_spot hspot.symm hf
    have hname : ((c.apply ws).component id).name = (ws.component id).name :=
      congrArg (fun spot => spot.2.1) hspot
    rw [hname] at hplain ⊢
    have hat := hmapped.placed hE id g parent dir hg ((congrArg Prod.fst hspot).symm.trans hparent)
      (hbefore (lt_trans habove hid)) hplain
    rwa [SourceFile.At, hpath, hdirectory] at hat
  · obtain ⟨hsize, path, rfl, hsited⟩ := h.new_file legal hf hid
    rw [hsize] at habove
    rw [hparent] at hsited
    rcases hsited with hasked | ⟨_, g, ⟨⟩, hg, hfound⟩
    · exact hasked.2 hE dir (hbefore habove) hplain
    · rw [(hmapped.placed hE).family hg (hbefore habove)] at hfound
      exact hfound.at (hmapped.named hE)

/-- **What is known in a session is kept by every change.** -/
theorem Serves.mapped_apply (h : Serves B E S F H ws c) (hs : ws.Sound) (legal : c.Legal ws)
    (hmapped : ws.Mapped B E S) : (c.apply ws).Mapped B E S where
  current hB := by
    cases h with
    | emit mem => exact mem.grows.current ▸ hmapped.current hB
    | plan mem => exact mem.disk_apply ▸ hmapped.current hB
    | disk absolute _ => exact absolute hB
  named hE := by
    cases h with
    | emit mem => exact mem.grows.named (hmapped.named hE)
    | plan mem => exact mem.disk_apply ▸ hmapped.named hE
    | disk _ named => exact named hE
  absolute hB := h.absolute_apply legal hB hmapped
  rooted hB := h.rooted_apply legal hB hmapped
  spelled := h.spelled_apply hmapped
  placed hE := h.placed_apply hs legal hE hmapped

theorem Reach.primed_serves (h : Reach (Serves B E S F H) ws ws') (hs : ws.Sound)
    (hp : ws.Primed F False H) : ws'.Primed F False H :=
  (h.mono fun _ _ h => h.works (K := fun _ => True)).primed_works hs hp

/-- **A session keeps what is known of files and projects.** -/
theorem Reach.mapped (h : Reach (Serves B E S F H) ws ws') (hs : ws.Sound) (hmapped : ws.Mapped B E S) :
    ws'.Mapped B E S :=
  h.invariant (I := Workspace.Mapped B E S) hs hmapped fun _ _ hs legal hc => hc.mapped_apply hs legal

end Serves

/-! ## The calls of a session -/

/-- The call can be made in a session. Where `E` holds no project is registered for a file, and the
entries are plain. Settings are those that `S` allows. -/
def Call.InSession (B E : Prop) (S : Spelling → Prop) (ws : Workspace) : Call → Prop
  | .setDisk d => (B → d.current.isAbsolute = true) ∧ (E → d.Named)
  | .openProject settings _ root => S settings.spelling ∧
      (E → ∀ q, Path.absolute? ws.disk.current root = some q → ws.disk.isFile q = false)
  | .compile settings entry => S settings.spelling ∧
      (E → ∀ e, Path.absolute? ws.disk.current entry = some e → ws.PlainEntry e)
  | _ => False

namespace Build

variable {B E F H : Prop} {S : Spelling → Prop} {ws : Workspace}

variable {settings : Settings} {name : String} {root entry : Path}

theorem openProject_of_missing {q : Path} (hq : Path.absolute? ws.disk.current root = some q) {fault : Fault}
    (hstat : ws.disk.stat q = .error fault) :
    ∃ failure, openProject settings name root ws = .error failure ws := by
  have hroot : absoluteArgument root ws = .ok q ws := by
    rw [absoluteArgument, bind_get, hq]
    rfl
  obtain ⟨failure, hmake⟩ : ∃ failure, addFile none name q ws = .error failure ws := by
    refine ⟨if fault = .missing then .nothingAt q else .unusable q fault, ?_⟩
    show makeFile (populateWithin (ws.disk.entries.length + 1)) none name q ws = _
    rw [makeFile]
    refine bind_of_error (ask_of_error ?_)
    exact hstat
  exact ⟨failure, (bind_of_ok hroot).trans (bind_of_error hmake)⟩

theorem serves_openProject (hmapped : ws.Mapped B E S) (hspelling : S settings.spelling)
    (hfree : E → ∀ q, Path.absolute? ws.disk.current root = some q → ws.disk.isFile q = false) :
    Makes (Serves B E S F H) (openProject settings name root) ws := by
  by_cases hdirectory : ∀ q, Path.absolute? ws.disk.current root = some q → E → ws.disk.isDirectory q = true
  · have hasked : ∀ q, Path.absolute? ws.disk.current root = some q → ws.Asked B E none name q := by
      intro q hq
      exact ⟨fun hB => ⟨Path.isAbsolute_of_absolute? (hmapped.current hB) hq, Path.normal_of_absolute? hq⟩,
        hdirectory q hq⟩
    exact (runs_openProject hspelling hasked).makes.mono fun _ _ h => .plan h
  · push Not at hdirectory
    obtain ⟨q, hq, hE, hno⟩ := hdirectory
    have hfile := hfree hE q hq
    cases hstat : ws.disk.stat q with
    | ok entry =>
      rw [Disk.isDirectory, hstat] at hno
      rw [Disk.isFile, hstat] at hfile
      cases entry with
      | directory => exact absurd rfl hno
      | file content => cases hfile
    | error fault =>
      intro _
      obtain ⟨failure, hrun⟩ := @openProject_of_missing ws settings name root q hq fault hstat
      rw [hrun]
      exact .refl _ ws

theorem serves_entryFile (hBE : E → B) (hmapped : ws.Mapped B E S) (hspelling : S settings.spelling)
    (hplain : E → ∀ e, Path.absolute? ws.disk.current entry = some e → ws.PlainEntry e) :
    Runs (Serves B E S F H) (entryFile settings entry) ws fun found ws' =>
      found.2 < ws'.size ∧ ∃ e, Path.absolute? ws.disk.current entry = some e ∧
        (E → ws'.EntryAt e found.2) :=
  (runs_entryFile hBE hspelling hmapped.rooted hmapped.current hplain).mono fun _ _ h => .plan h

theorem serves_compile (hBE : E → B) (hp : ws.Primed F False H) (hmapped : ws.Mapped B E S)
    (hspelling : S settings.spelling)
    (hplain : E → ∀ e, Path.absolute? ws.disk.current entry = some e → ws.PlainEntry e) :
    Makes (Serves B E S F H) (compile settings entry) ws := by
  refine .of_sound fun hs => ?_
  rw [compile_eq]
  refine .bind (serves_entryFile hBE hmapped hspelling hplain) fun found ws₁ _ hreach₁ hfound => ?_
  exact (runs_translate (hreach₁.primed_serves hs hp) found.1 hfound.1).makes.mono fun _ _ h => .emit h

end Build

section Sessions

open Build

variable {A : Workspace → Call → Prop} {B E F H : Prop} {S : Spelling → Prop} {ws ws' : Workspace}

theorem Call.InSession.serves {c : Call} (h : c.InSession B E S ws) (hBE : E → B) (hp : ws.Primed F False H)
    (hmapped : ws.Mapped B E S) : Makes (Serves B E S F H) c.run ws := by
  cases c with
  | setDisk d => exact Makes.change (.disk d) rfl trivial (.disk h.1 h.2)
  | openProject settings name root => exact Makes.discard (serves_openProject hmapped h.1 h.2)
  | compile settings entry => exact Makes.discard (serves_compile hBE hp hmapped h.1 h.2)
  | _ => exact h.elim

/-- **What a session does.** -/
theorem Continues.serves (h : Continues A ws ws') (hA : ∀ ws c, A ws c → c.InSession B E S ws) (hBE : E → B)
    (hs : ws.Sound) (hp : ws.Primed F False H) (hmapped : ws.Mapped B E S) :
    Reach (Serves B E S F H) ws ws' := by
  induction h with
  | refl => exact .refl _ ws
  | @tail next _ _ step ih =>
    obtain ⟨c, -, allowed, rfl⟩ := step
    have hmakes := (hA next c allowed).serves hBE (ih.primed_serves hs hp) (ih.mapped hs hmapped)
    exact ih.trans (hmakes.reach_after (ih.sound hs))

theorem Workspace.mapped_new {settings : Settings} {disk : Disk} (readers : List Language)
    (hcurrent : B → disk.current.isAbsolute = true) (hnamed : E → disk.Named) :
    (Workspace.new settings disk readers).Mapped B E S := by
  have hc := Workspace.component_new settings disk readers
  refine ⟨hcurrent, hnamed, fun _ id f hf => ?_, fun _ id hid => absurd hid (Nat.not_lt_zero id),
    fun id hid => absurd hid (Nat.not_lt_zero id), fun _ id f parent dir hf => ?_⟩
  · rw [hc] at hf
    cases hf
  · rw [hc] at hf
    cases hf

end Sessions

end LightHeaders
