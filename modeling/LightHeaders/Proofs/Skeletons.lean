import LightHeaders.Proofs.Emitting

set_option autoImplicit false

/-! # Where files stand

A file is made for what is at a path. It was **asked** for, or it was **found** in the directory that
belongs to the file above it, its **family**. What it was made for never changes, and neither do its
name and the component above it (`Component.spot`).

From the names on the way down from the root of its tree one can tell the directory that a component
stands for (`Stands`). A file stands there in its place if its path is that of the directory, or that
of a source beside it (`SourceFile.At`). What skeletons find is in its place; what is asked for need
not be. Names with a dot do not tell a stem from an extension, so nothing is said of them.
-/

namespace LightHeaders

open Change

/-! ## What stays of a component -/

/-- What stays of a component: the one above it, its name, and what it was made for if it is a file. -/
def Component.spot (c : Component) : Option ComponentId × String × Option (Path × Bool) :=
  (c.parent?, c.name, c.file?.map fun f => (f.path, f.isDirectory))

theorem FileEdit.path_apply (e : FileEdit) (f : SourceFile) : (e.apply f).path = f.path := by
  cases e with
  | library | dependency =>
    simp only [apply]
    split <;> rfl
  | _ => rfl

theorem FileEdit.isDirectory_apply (e : FileEdit) (f : SourceFile) :
    (e.apply f).isDirectory = f.isDirectory := by
  cases e with
  | library | dependency =>
    simp only [apply]
    split <;> rfl
  | _ => rfl

theorem Edit.spot_apply (e : Edit) (c : Component) : (e.apply c).spot = c.spot := by
  rw [Component.spot, Component.spot, apply_parent?, apply_name]
  rcases e.apply_file? c with hsame | ⟨g, -, hg⟩
  · rw [hsame]
  · rw [hg, Option.map_map]
    simp only [Function.comp_def, g.path_apply, g.isDirectory_apply]

section Spot

variable {P : Change.Class} {ws ws' : Workspace} {id : ComponentId}

theorem Change.spot_apply (c : Change) (legal : c.Legal ws) (hid : id < ws.size) :
    ((c.apply ws).component id).spot = (ws.component id).spot := by
  rcases c.view_apply Component.spot (fun _ _ _ => rfl) legal _ (.inl hid) with hsame | ⟨e, -, heq⟩
  · exact hsame
  · rw [heq]
    exact e.spot_apply _

/-- **What a component was made for stays.** -/
theorem Reach.spot_eq (h : Reach P ws ws') (hs : ws.Sound) (hid : id < ws.size) :
    (ws'.component id).spot = (ws.component id).spot := by
  refine (h.invariant (I := fun ws' => id < ws'.size ∧ (ws'.component id).spot = (ws.component id).spot)
    hs ⟨hid, rfl⟩ ?_).2
  rintro next c - legal - ⟨hlt, hspot⟩
  exact ⟨lt_of_lt_of_le hlt (c.extends_apply legal).size_le, (c.spot_apply legal hlt).trans hspot⟩

theorem file?_of_spot {f : SourceFile} (hspot : (ws'.component id).spot = (ws.component id).spot)
    (hf : (ws.component id).file? = some f) :
    ∃ f', (ws'.component id).file? = some f' ∧ f'.path = f.path ∧ f'.isDirectory = f.isDirectory := by
  have hfile := congrArg (fun spot => spot.2.2) hspot
  simp only [Component.spot, hf, Option.map_some] at hfile
  obtain ⟨f', hf', heq⟩ := Option.map_eq_some_iff.mp hfile
  exact ⟨f', hf', congrArg Prod.fst heq, congrArg Prod.snd heq⟩

end Spot

/-! ## Places -/

/-- The directory that the files below a file are looked for in. -/
def SourceFile.family (f : SourceFile) : Path :=
  if f.isDirectory then f.path else f.path.withExtension ""

variable {f : SourceFile} {ext name : String}

theorem SourceFile.family_eq {g : SourceFile} (hpath : f.path = g.path)
    (hdirectory : f.isDirectory = g.isDirectory) : f.family = g.family := by
  rw [family, family, hpath, hdirectory]

/-- The name is a step of a path without a dot in it. -/
def Path.IsPlain (s : String) : Prop := Path.IsName s ∧ '.' ∉ s.toList

instance (s : String) : Decidable (Path.IsPlain s) := inferInstanceAs (Decidable (_ ∧ _))

/-- The file is in its place for a name in a directory: its path is that of the name, or of a source
with the name for its stem. -/
def SourceFile.At (f : SourceFile) (dir : Path) (name : String) : Prop :=
  f.path = dir.join ⟨name⟩ ∨ f.isDirectory = false ∧
    ∃ ext l, Language.ofExtension? ext = some l ∧ f.path = dir.join ⟨name ++ "." ++ ext⟩

theorem Language.ofExtension?_eq_some {l : Language} (h : ofExtension? ext = some l) :
    ext ≠ "" ∧ '/' ∉ ext.toList ∧ '.' ∉ ext.toList := by
  unfold ofExtension? at h
  split at h
  · decide
  · decide
  · decide
  · cases h

theorem Path.slash_not_mem_append (hname : '/' ∉ name.toList)
    (hext : '/' ∉ ext.toList) : '/' ∉ (name ++ "." ++ ext).toList := by
  rw [String.toList_append, String.toList_append]
  simp only [List.mem_append, not_or]
  exact ⟨⟨hname, by decide⟩, hext⟩

/-- The family of a file in its place is the directory with the same name. -/
theorem SourceFile.At.family {dir : Path} (h : f.At dir name)
    (hname : Path.IsPlain name) : f.family = dir.join ⟨name⟩ := by
  rcases h with hpath | ⟨hfile, ext, l, hext, hpath⟩
  · rw [SourceFile.family, hpath]
    split
    · rfl
    · exact (Path.withExtension_join_bare dir hname.1 hname.2).2
  · obtain ⟨hne, hslash, hdot⟩ := Language.ofExtension?_eq_some hext
    have hstem : name ≠ "" := (Path.isName_iff.mp hname.1).2.1
    have hnotDot : name ≠ "." := (Path.isName_iff.mp hname.1).2.2.1
    rw [SourceFile.family, hfile, if_neg Bool.false_ne_true, hpath,
      Path.withExtension_join dir hstem hne (Path.slash_not_mem_append hname.1.1 hslash) hdot,
      if_neg hnotDot]

namespace Workspace

/-- The directory that a component stands for: that of the root of its tree, and the names from there
down to it. -/
inductive Stands (ws : Workspace) : ComponentId → Path → Prop
  | root {id : ComponentId} {f : SourceFile} (top : (ws.component id).parent? = none)
      (file : (ws.component id).file? = some f) : Stands ws id f.family
  | inside {id parent : ComponentId} {dir : Path} (inside : (ws.component id).parent? = some parent)
      (above : Stands ws parent dir) (plain : Path.IsPlain (ws.component id).name) :
      Stands ws id (dir.join ⟨(ws.component id).name⟩)

variable {ws ws' : Workspace} {id : ComponentId} {dir : Path}

theorem Stands.unique {dir' : Path} (h : ws.Stands id dir) (h' : ws.Stands id dir') : dir = dir' := by
  induction h generalizing dir' with
  | root top file =>
    cases h' with
    | root _ file' => rw [Option.some.inj (file.symm.trans file')]
    | inside inside =>
      rw [top] at inside
      cases inside
  | inside inside _ _ ih =>
    cases h' with
    | root top =>
      rw [top] at inside
      cases inside
    | inside inside' above =>
      rw [inside] at inside'
      cases inside'
      rw [ih above]

/-- The place of a component is told by what stays. -/
theorem Stands.of_spot (hs : ws.Sound) (h : ws.Stands id dir)
    (hspot : ∀ other ≤ id, (ws'.component other).spot = (ws.component other).spot) :
    ws'.Stands id dir := by
  induction h with
  | @root id f top file =>
    obtain ⟨f', hf', hpath, hdirectory⟩ := file?_of_spot (hspot id (Nat.le_refl id)) file
    rw [← SourceFile.family_eq hpath hdirectory]
    exact .root ((congrArg Prod.fst (hspot id (Nat.le_refl id))).trans top) hf'
  | @inside id parent dir inside above plain ih =>
    have hid := hspot id (Nat.le_refl id)
    have hname : (ws'.component id).name = (ws.component id).name :=
      congrArg (fun spot => spot.2.1) hid
    have habove := ih fun other hother => hspot other
      (le_trans hother (le_of_lt (hs.parent_lt inside)))
    have hbelow : ws'.Stands id (dir.join ⟨(ws'.component id).name⟩) :=
      .inside ((congrArg Prod.fst hid).trans inside) habove (by rwa [hname])
    rwa [hname] at hbelow

theorem Stands.reach {P : Change.Class} (hs : ws.Sound) (hreach : Reach P ws ws') (hid : id < ws.size)
    (h : ws.Stands id dir) : ws'.Stands id dir :=
  h.of_spot hs fun _ hother => hreach.spot_eq hs (lt_of_le_of_lt hother hid)

/-- Every file below another component is in its place. -/
def Placed (ws : Workspace) : Prop :=
  ∀ id f parent dir, (ws.component id).file? = some f → (ws.component id).parent? = some parent →
    ws.Stands parent dir → Path.IsPlain (ws.component id).name → f.At dir (ws.component id).name

theorem Placed.family (h : ws.Placed) (hf : (ws.component id).file? = some f) (hstands : ws.Stands id dir) :
    f.family = dir := by
  cases hstands with
  | root _ file => rw [Option.some.inj (hf.symm.trans file)]
  | inside inside above plain => exact (h id f _ _ hf inside above plain).family plain

/-- The file that is made for what is at a path. -/
def fileFor (ws : Workspace) (path : Path) : SourceFile :=
  { path, isDirectory := ws.disk.isDirectory path }

end Workspace

/-! ## The changes that making files makes -/

/-- What is found in a directory for a skeleton: a source, known by its stem, or a directory. -/
inductive Disk.Finds (d : Disk) (dir : Path) : String → Path → Prop
  | source {names : List String} {s : String} (listed : d.names dir = .ok names) (mem : s ∈ names)
      (isFile : d.isFile (dir.join ⟨s⟩) = true) (isSource : Language.isSource (dir.join ⟨s⟩) = true) :
      Finds d dir ((dir.join ⟨s⟩).stem?.getD s) (dir.join ⟨s⟩)
  | directory {names : List String} {s : String} (listed : d.names dir = .ok names) (mem : s ∈ names)
      (isDirectory : d.isDirectory (dir.join ⟨s⟩) = true) : Finds d dir s (dir.join ⟨s⟩)

/-- What is known of a file that is asked for. Where `B` holds its path is absolute, and that of the
root of a tree is in normal form. Where `E` holds the root of a tree is a directory, and what is asked
for below a component is in its place. -/
def Workspace.Asked (B E : Prop) (ws : Workspace) : Option ComponentId → String → Path → Prop
  | none, _, path =>
    (B → path.isAbsolute = true ∧ path.normal = path) ∧ (E → ws.disk.isDirectory path = true)
  | some parent, name, path =>
    (B → path.isAbsolute = true) ∧ (E → ∀ dir, ws.Stands parent dir → Path.IsPlain name →
      (ws.fileFor path).At dir name)

/-- The root of a project is the root of a tree. -/
structure Workspace.Rooted (B E : Prop) (ws : Workspace) (p : Project) : Prop where
  absolute : B → p.root.isAbsolute = true ∧ p.root.normal = p.root
  top : (ws.component p.component).parent? = none
  file : ∃ f, (ws.component p.component).file? = some f ∧ f.path = p.root ∧ (E → f.isDirectory = true)

theorem Workspace.Rooted.of_spot {B E : Prop} {ws ws' : Workspace} {p : Project} (h : ws.Rooted B E p)
    (hspot : (ws'.component p.component).spot = (ws.component p.component).spot) : ws'.Rooted B E p := by
  obtain ⟨f, hf, hpath, hdirectory⟩ := h.file
  obtain ⟨f', hf', hpath', hdirectory'⟩ := file?_of_spot hspot hf
  exact ⟨h.absolute, (congrArg Prod.fst hspot).trans h.top, f', hf', hpath'.trans hpath,
    fun hE => hdirectory'.trans (hdirectory hE)⟩

/-- The change that makes a file below a component, or the root of a tree. -/
def Change.file (parent? : Option ComponentId) (name : String) (f : SourceFile) : Change :=
  match parent? with
  | none => .root name (.file f)
  | some parent => .below parent name (.file f) none

/-- The changes that making files and registering projects makes. Projects spell paths as `S` allows. -/
inductive Plans (B E : Prop) (S : Spelling → Prop) (ws : Workspace) : Change → Prop
  | asked {parent? : Option ComponentId} {name : String} {path : Path}
      (asked : ws.Asked B E parent? name path) : Plans B E S ws (.file parent? name (ws.fileFor path))
  | found {parent : ComponentId} {f : SourceFile} {name : String} {path : Path}
      (file : (ws.component parent).file? = some f) (found : ws.disk.Finds f.family name path) :
      Plans B E S ws (.file (some parent) name (ws.fileFor path))
  | project {p : Project} (rooted : ws.Rooted B E p) (spelled : S p.spelling) : Plans B E S ws (.project p)
  | owned {file : ComponentId} {project : ProjectId} (there : project < ws.projects.size)
      (new : ∀ id, ws.Decided id → ws.outermost id ≠ file) :
      Plans B E S ws (.edit file (.file (.project project)))
  | active (id? : Option ProjectId) : Plans B E S ws (.active id?)

section Plans

variable {B E : Prop} {S : Spelling → Prop} {ws ws' : Workspace} {c : Change}

/-- What a new component is: a file of which nothing is known but what is at its path. -/
theorem Plans.newKind? (h : Plans B E S ws c) {kind : Kind} (hkind : c.newKind? = some kind) :
    ∃ path, kind = .file (ws.fileFor path) := by
  cases h with
  | @asked parent? name path =>
    cases parent? <;> cases hkind <;> exact ⟨path, rfl⟩
  | @found parent f name path => cases hkind; exact ⟨path, rfl⟩
  | _ => cases hkind

/-- The only edit is that a file comes to belong to a project. -/
theorem Plans.edit {id : ComponentId} {e : Edit} (h : Plans B E S ws (.edit id e)) :
    ∃ project, e = .file (.project project) ∧ project < ws.projects.size ∧
      ∀ other, ws.Decided other → ws.outermost other ≠ id := by
  generalize hc : Change.edit id e = c at h
  cases h with
  | @asked parent? => cases parent? <;> cases hc
  | found => cases hc
  | @owned file project there new =>
    cases hc
    exact ⟨project, rfl, there, new⟩
  | _ => cases hc

theorem Plans.disk_apply (h : Plans B E S ws c) : (c.apply ws).disk = ws.disk := by
  cases h with
  | @asked parent? => cases parent? <;> rfl
  | _ => rfl

theorem Reach.disk_eq (h : Reach (Plans B E S) ws ws') (hs : ws.Sound) : ws'.disk = ws.disk :=
  h.invariant (I := fun ws' => ws'.disk = ws.disk) hs rfl fun _ _ _ _ hc heq => hc.disk_apply.trans heq

theorem Reach.decided_of_plans (h : Reach (Plans B E S) ws ws') (hs : ws.Sound) {file : ComponentId}
    (hd : ws'.Decided file) : ws.Decided file := by
  refine h.invariant (I := fun ws' => ws'.Decided file → ws.Decided file) hs (fun hd => hd) ?_ hd
  intro next c _ legal hc ih hd
  refine ih ?_
  rw [Workspace.Decided, Workspace.output?] at hd ⊢
  rcases c.file?_apply legal file with heq | ⟨-, kind, hkind, heq⟩ | ⟨-, g, rfl, heq⟩
  · rwa [heq] at hd
  · obtain ⟨path, rfl⟩ := hc.newKind? hkind
    rw [heq] at hd
    cases hd
  · obtain ⟨project, hproject, -⟩ := hc.edit
    cases hproject
    rw [heq] at hd
    cases hfile : (next.component file).file? with
    | none =>
      rw [hfile] at hd
      cases hd
    | some f =>
      rw [hfile] at hd
      exact hd

end Plans

namespace Build

variable {B E : Prop} {S : Spelling → Prop} {ws : Workspace}

/-! ## Skeletons -/

variable {parent? : Option ComponentId} {path : Path} {name : String}

theorem isDirectory_of_stat {d : Disk} {entry : Entry} :
    d.stat path = .ok entry → (match entry with
      | .directory => true
      | .file _ => false) = d.isDirectory path := by
  intro h
  rw [Disk.isDirectory, h]
  cases entry <;> rfl

variable {populate : ComponentId → Path → Build Unit}

/-- **Making a file** for what is at a path, and what belongs below it. -/
theorem runs_placeFile
    (hpopulate : ∀ ws' id f, (ws'.component id).file? = some f → Makes (Plans B E S) (populate id f.family) ws')
    (hparent : ∀ parent, parent? = some parent → parent < ws.size)
    (hnew : Plans B E S ws (.file parent? name (ws.fileFor path))) {isDirectory : Bool}
    (hdirectory : isDirectory = ws.disk.isDirectory path) :
    Runs (Plans B E S)
      (do
        let kind := Kind.file { path, isDirectory }
        let id ←
          match parent? with
          | some parent => addBelow parent name kind none
          | none => addRoot name kind
        let family := if isDirectory then path else path.withExtension ""
        if (← get).disk.isDirectory family then populate id family
        return id) ws fun id ws' => id = ws.size ∧ id < ws'.size ∧
          (ws'.component id).spot = (parent?, name, some (path, ws.disk.isDirectory path)) := by
  subst hdirectory
  -- the rest, once the file is there
  have hfamily : ∀ ws₁ : Workspace, ws.size < ws₁.size →
      (ws₁.component ws.size).file? = some (ws.fileFor path) →
      (ws₁.component ws.size).spot = (parent?, name, some (path, ws.disk.isDirectory path)) →
      ws₁.Sound →
      Runs (Plans B E S)
        (do
          if (← get).disk.isDirectory (ws.fileFor path).family then
            populate ws.size (ws.fileFor path).family
          return ws.size) ws₁ fun id ws' => id = ws.size ∧ id < ws'.size ∧
            (ws'.component id).spot = (parent?, name, some (path, ws.disk.isDirectory path)) := by
    intro ws₁ hlt hfile hspot hs₁
    refine .get fun _ => .first (fun _ => hpopulate ws₁ ws.size (ws.fileFor path) hfile) ?_
    intro ws₂ _ hreach
    exact .pure ⟨rfl, hreach.lt hlt, (hreach.spot_eq hs₁ hlt).trans hspot⟩
  cases parent? with
  | none =>
    refine .bind (.addRoot hnew) ?_
    rintro id _ hs₁ - ⟨rfl, rfl⟩
    have hcomponent : ((root name (.file (ws.fileFor path))).apply ws).component ws.size
        = { name, kind := .file (ws.fileFor path) } := ws.component_add_size _
    exact hfamily _ (by simp [apply]) (congrArg Component.file? hcomponent)
      (congrArg Component.spot hcomponent) hs₁
  | some parent =>
    have hlegal : (below parent name (.file (ws.fileFor path)) none).Legal ws :=
      ⟨hparent parent rfl, by rintro _ ⟨⟩⟩
    refine .bind (.addBelow hlegal hnew) ?_
    rintro id _ hs₁ - ⟨rfl, rfl⟩
    have hcomponent :
        ((below parent name (.file (ws.fileFor path)) none).apply ws).component ws.size
          = { name, kind := .file (ws.fileFor path), parent? := some parent, instruction? := none } := by
      rw [component_below (hparent parent rfl), if_pos rfl]
    exact hfamily _ (by simp) (congrArg Component.file? hcomponent)
      (congrArg Component.spot hcomponent) hs₁

theorem runs_makeFile
    (hpopulate : ∀ ws' id f, (ws'.component id).file? = some f → Makes (Plans B E S) (populate id f.family) ws')
    (hparent : ∀ parent, parent? = some parent → parent < ws.size)
    (hnew : Plans B E S ws (.file parent? name (ws.fileFor path))) :
    Runs (Plans B E S) (makeFile populate parent? name path) ws fun id ws' =>
      id = ws.size ∧ id < ws'.size ∧
        (ws'.component id).spot = (parent?, name, some (path, ws.disk.isDirectory path)) := by
  refine .bind Runs.ask ?_
  rintro entry ws - - ⟨rfl, hstat⟩
  exact runs_placeFile hpopulate hparent hnew (isDirectory_of_stat hstat)

theorem runs_visibleNames {P : Change.Class} (dir : Path) :
    Runs P (visibleNames dir) ws fun found ws' => ws' = ws ∧ ∃ names, ws.disk.names dir = .ok names ∧
      ∀ pair ∈ found, pair.1 ∈ names ∧ pair.2 = dir.join ⟨pair.1⟩ := by
  refine .bind Runs.ask ?_
  rintro names _ - - ⟨rfl, hnames⟩
  refine .pure ⟨rfl, names, hnames, fun pair hpair => ?_⟩
  obtain ⟨s, hs, rfl⟩ := List.mem_map.mp hpair
  exact ⟨(List.mem_filter.mp hs).1, rfl⟩

/-- **What is found in the family of a file** is made below it. -/
theorem makes_populateWithin (depth : Nat) {id : ComponentId} (hfile : (ws.component id).file? = some f) :
    Makes (Plans B E S) (populateWithin depth id f.family) ws := by
  induction depth generalizing ws id f with
  | zero => exact .pure trivial
  | succ depth ih =>
    refine .of_sound fun hs => ?_
    have hlt := Workspace.lt_size_of_isFile (Workspace.isFile_of_file? hfile)
    have hmake : ∀ (ws' : Workspace) (name : String) (path : Path), Reach (Plans B E S) ws ws' →
        ws.disk.Finds f.family name path →
        Makes (Plans B E S) (discard (makeFile (populateWithin depth) (some id) name path)) ws' := by
      intro ws' name path hreach hfound
      obtain ⟨f', hf', hpath, hdirectory⟩ := file?_of_spot (hreach.spot_eq hs hlt) hfile
      refine Makes.discard (runs_makeFile (fun _ _ _ hfile => ih hfile) ?_ (.found hf' ?_)).makes
      · rintro _ ⟨⟩
        exact hreach.lt hlt
      · rw [hreach.disk_eq hs, SourceFile.family_eq hpath hdirectory]
        exact hfound
    refine .bind (runs_visibleNames f.family) ?_
    rintro found ws - - ⟨rfl, names, hnames, hfound⟩
    refine .get fun _ => ?_
    refine .bind (Makes.forM fun source hsource ws₁ _ hreach₁ => ?_) fun _ ws₁ _ hreach₁ _ => ?_
    · obtain ⟨hmem, hkept⟩ := List.mem_filter.mp hsource
      obtain ⟨hlisted, hpath⟩ := hfound source hmem
      rw [Bool.and_eq_true, hpath] at hkept
      have hfinds := Disk.Finds.source hnames hlisted hkept.1 hkept.2
      rw [← hpath] at hfinds
      exact hmake ws₁ _ _ hreach₁ hfinds
    · refine Makes.forM fun directory hdirectory ws₂ _ hreach₂ => ?_
      obtain ⟨hmem, hkept⟩ := List.mem_filter.mp hdirectory
      obtain ⟨hlisted, hpath⟩ := hfound directory hmem
      rw [Bool.and_eq_true, hpath] at hkept
      have hfinds := Disk.Finds.directory hnames hlisted hkept.1
      rw [← hpath] at hfinds
      exact hmake ws₂ _ _ (hreach₁.trans hreach₂) hfinds

theorem runs_addFile (hparent : ∀ parent, parent? = some parent → parent < ws.size)
    (hasked : ws.Asked B E parent? name path) :
    Runs (Plans B E S) (addFile parent? name path) ws fun id ws' =>
      id = ws.size ∧ id < ws'.size ∧
        (ws'.component id).spot = (parent?, name, some (path, ws.disk.isDirectory path)) :=
  Runs.get fun _ => runs_makeFile (fun _ _ _ hfile => makes_populateWithin _ hfile) hparent (.asked hasked)

/-! ## Projects -/

/-- **The new project** has the next number, and its root is the root of a tree. -/
theorem runs_registerProject {root : Path} (hasked : ws.Asked B E none name root) (outputDir : Path)
    {spelling : Spelling} (hspelling : S spelling) :
    Runs (Plans B E S) (registerProject name root outputDir spelling) ws fun id ws' =>
      id < ws'.projects.size ∧ (ws'.project id).root = root ∧ ws'.Rooted B E (ws'.project id) := by
  refine .of_sound fun hs => ?_
  refine .bind (runs_addFile (by rintro _ ⟨⟩) hasked) ?_
  rintro component ws₁ hs₁ hreach₁ ⟨hcomponent, hlt, hspot⟩
  refine .get fun _ => ?_
  let p : Project := { name, root, outputDir, spelling, component }
  have hrooted : ws₁.Rooted B E p := by
    obtain ⟨f, hf, heq⟩ := Option.map_eq_some_iff.mp (congrArg (fun spot => spot.2.2) hspot)
    exact ⟨hasked.1, congrArg Prod.fst hspot, f, hf, congrArg Prod.fst heq,
      fun hE => (congrArg Prod.snd heq).trans (hasked.2 hE)⟩
  have hpush : Runs (Plans B E S)
      (modify fun ws => { ws with projects := ws.projects.push p } : Build Unit) ws₁
      fun _ ws' => ws' = (project p).apply ws₁ :=
    Runs.change (.project p) rfl hlt (.project hrooted hspelling) rfl
  refine .bind hpush ?_
  rintro _ _ hs₂ - rfl
  have hthere : ws₁.projects.size < ((project p).apply ws₁).projects.size := by
    simp [apply]
  -- what is decided was there before the project, and so was the root of its tree
  have hnew : ∀ id, ((project p).apply ws₁).Decided id →
      ((project p).apply ws₁).outermost id ≠ component := by
    intro id hdecided heq
    have hid : id < ws.size :=
      Workspace.lt_size_of_isFile (hreach₁.decided_of_plans hs hdecided).isFile
    have hle := hs₂.outermost_le id
    rw [heq, hcomponent] at hle
    exact Nat.not_le_of_lt hid hle
  let own : Change := .edit component (.file (.project ws₁.projects.size))
  have hproject : (own.apply ((project p).apply ws₁)).project ws₁.projects.size = p := by
    simp [own, apply, Workspace.project, Workspace.modify]
  have hown : Runs (Plans B E S)
      (updateFile component fun f => { f with project? := some ws₁.projects.size })
      ((project p).apply ws₁) fun _ ws' => ws' = own.apply ((project p).apply ws₁) :=
    Runs.change own rfl trivial (.owned hthere hnew) rfl
  refine .bind hown ?_
  rintro _ _ - - rfl
  refine .pure ⟨hthere, ?_, ?_⟩
  · rw [hproject]
  · rw [hproject]
    refine hrooted.of_spot ?_
    exact own.spot_apply trivial hlt

end Build

end LightHeaders
