import LightHeaders.Proofs.Skeletons

set_option autoImplicit false

/-! # The file of an entry

To compile an entry is to find its file and to translate that (`Build.compile_eq`). The file is found by
the dotted name of the entry below the root of its project: from the component of the root down, by one
name after the other.

A name with a dot in it comes apart on the way. Where no step of the entry has one, the file that is
found stands in the place of the entry (`Workspace.EntryAt`), whatever the names on the way led to.
-/

namespace LightHeaders

open LightHeaders.Path LightHeaders.Language

/-! ## Entries below a root -/

namespace Path

/-- The Light source that steps lead to from a directory. -/
def lightBelow (dir : Path) : List String → Path
  | [] => dir
  | [s] => dir.join ⟨s ++ "." ++ lightSuffix⟩
  | s :: t :: rest => (dir.join ⟨s⟩).lightBelow (t :: rest)

theorem lightBelow_concat (dir : Path) (steps : List String) (s : String) :
    dir.lightBelow (steps ++ [s])
      = (steps.foldl (fun p t => p.join ⟨t⟩) dir).join ⟨s ++ "." ++ lightSuffix⟩ := by
  induction steps generalizing dir with
  | nil => rfl
  | cons t steps ih =>
    rw [List.foldl_cons, ← ih]
    cases steps <;> rfl

variable {base e p q : Path}

theorem normal_of_absolute? (h : absolute? base p = some q) : q.normal = q := by
  rw [absolute?] at h
  split at h
  · cases h
  · cases h
    exact normal_normal _

theorem isAbsolute_of_absolute? (hbase : base.isAbsolute = true)
    (h : absolute? base p = some q) : q.isAbsolute = true := by
  rw [absolute?] at h
  split at h
  · cases h
  · cases h
    exact isAbsolute_normal (by rw [isAbsolute_join, hbase, Bool.or_true])

theorem ofParts_parts (h : p.normal = p) : ofParts p.parts = p := by
  have hparts : normalParts p.parts = p.parts := by rw [← parts_normal, h]
  rw [← hparts]
  exact h

theorem isNormal_parts (h : p.normal = p) : IsNormal p.parts := by
  rw [← h, parts_normal]
  exact isNormal_normalParts p.spelled_parts

/-- The names below a path in normal form are put behind it one by one. -/
theorem ofParts_append_names {ps : List Part} {names : List String}
    (h : Spelled (ps ++ names.map Part.name)) :
    ofParts (ps ++ names.map Part.name) = names.foldl (fun p t => p.join ⟨t⟩) (ofParts ps) := by
  induction names using List.reverseRecOn with
  | nil => simp
  | append_singleton names s ih =>
    rw [List.map_append, List.map_singleton, ← List.append_assoc] at h ⊢
    have hs : IsName s := h.sound (List.mem_append_right _ (List.mem_singleton.mpr rfl))
    rw [ofParts_concat h.of_append.1 hs.1, ih h.of_append.1, List.foldl_append]
    rfl

/-- **A Light source is where its steps lead**, if none of them has a dot in it. -/
theorem eq_lightBelow {root : Path} {steps : List String} (he : e.normal = e) (hroot : root.normal = root)
    (habsolute : root.isAbsolute = true) (hlight : ofPath? e = some .light)
    (h : e.stepsBelow? root = some steps) (hdots : ∀ s ∈ steps, '.' ∉ s.toList) :
    (∀ s ∈ steps, IsPlain s) ∧ (steps ≠ [] → e = root.lightBelow steps) := by
  rcases exists_of_stepsBelow? hlight h with ⟨-, rfl⟩ | ⟨front, stem, hne, hslash, hparts, rfl⟩
  · exact ⟨fun _ hs => absurd hs List.not_mem_nil, fun hnil => absurd rfl hnil⟩
  · have hstem : stem ≠ "." := by
      rintro rfl
      exact hdots ".." (List.mem_append_right _ (List.mem_singleton.mpr rfl)) (by decide)
    rw [if_neg hstem] at hdots ⊢
    have hlast := hdots stem (List.mem_append_right _ (List.mem_singleton.mpr rfl))
    have hname : IsName stem := by
      refine isName_iff.mpr ⟨hslash, hne, hstem, ?_⟩
      rintro rfl
      exact hlast (by decide)
    -- behind the root, what is no name has a dot
    have hspelled := e.spelled_parts
    rw [hparts] at hspelled
    obtain ⟨rest, hrest⟩ := List.head?_eq_some_iff.mp (isAbsolute_iff.mp habsolute)
    have hfront : ∀ part ∈ front, part = .name part.text ∧ IsName part.text := by
      intro part hpart
      have hdot := hdots part.text (List.mem_append_left _ (List.mem_map_of_mem hpart))
      have hsound : part.Sound ∧ part ≠ .root ∧ part ≠ .here := by
        rw [hrest] at hspelled
        exact hspelled.2 part (List.mem_append_right _ (List.mem_append_left _ hpart))
      cases part with
      | root => exact absurd rfl hsound.2.1
      | here => exact absurd rfl hsound.2.2
      | up => exact absurd (by decide) hdot
      | name s => exact ⟨rfl, hsound.1⟩
    refine ⟨fun s hs => ⟨?_, hdots s hs⟩, fun _ => ?_⟩
    · rcases List.mem_append.mp hs with hs | hs
      · obtain ⟨part, hpart, rfl⟩ := List.mem_map.mp hs
        exact (hfront part hpart).2
      · rw [List.mem_singleton.mp hs]
        exact hname
    · have hmap : (front.map Part.text).map Part.name = front := by
        rw [List.map_map]
        exact (List.map_congr_left fun part hpart => (hfront part hpart).1.symm).trans (List.map_id front)
      rw [lightBelow_concat, ← ofParts_parts hroot, ← ofParts_append_names, hmap,
        ← ofParts_concat, List.append_assoc, ← hparts, ofParts_parts he]
      · rw [← List.append_assoc] at hspelled
        exact hspelled.of_append.1
      · have hmem : Part.name (stem ++ "." ++ lightSuffix) ∈
            root.parts ++ (front ++ [.name (stem ++ "." ++ lightSuffix)]) := by simp
        exact (hspelled.sound hmem).1
      · rw [hmap]
        rw [← List.append_assoc] at hspelled
        exact hspelled.of_append.1

theorem exists_parent (he : e.normal = e) (habsolute : e.isAbsolute = true)
    (hlight : ofPath? e = some .light) :
    ∃ ps s, e = ofParts (ps ++ [.name s]) ∧ e.parent? = some (ofParts ps) ∧ IsNormal ps ∧
      Spelled (ps ++ [.name s]) ∧ ps.head? = some .root := by
  obtain ⟨stem, -, hlast⟩ := getLast?_parts_of_light hlight
  obtain ⟨ps, hps⟩ := List.getLast?_eq_some_iff.mp hlast
  refine ⟨ps, _, ?_, ?_, ?_, hps ▸ e.spelled_parts, ?_⟩
  · rw [← hps, ofParts_parts he]
  · rw [parent?, hlast]
    dsimp only
    rw [hps, List.dropLast_concat]
  · obtain ⟨lead, names, hlead, heq⟩ := isNormal_parts he
    rw [hps] at heq
    rcases List.eq_nil_or_concat' names with rfl | ⟨front, last, rfl⟩
    · -- the start of a normal form ends in no name
      exfalso
      rw [List.map_nil, List.append_nil] at heq
      have hmem : Part.name (stem ++ "." ++ lightSuffix) ∈ lead := by
        rw [← heq]
        exact List.mem_append_right _ (List.mem_singleton.mpr rfl)
      simp only [List.mem_cons, List.not_mem_nil, or_false] at hlead
      rcases hlead with rfl | rfl | rfl | rfl <;> simp at hmem
    · rw [List.map_append, List.map_singleton, ← List.append_assoc] at heq
      exact ⟨lead, front, hlead, (List.append_inj' heq rfl).1⟩
  · have hhead := isAbsolute_iff.mp habsolute
    rw [hps] at hhead
    cases ps with
    | nil => cases hhead
    | cons first rest => exact hhead

end Path

/-! ## The two halves of compiling -/

namespace Build

/-- The project of an entry, which becomes the active one, and the file of the entry. -/
def entryFile (settings : Settings) (entry : Path) : Build (ProjectId × ComponentId) := do
  let entry ← absoluteArgument entry
  if !(← get).disk.isFile entry then throw (.nothingAt entry)
  if ofPath? entry ≠ some .light then throw (.unknownLanguage entry)
  let project ←
    match (← get).projectAround? entry with
    | some project => pure project
    | none => openEntryProject settings entry
  modify fun ws => { ws with active? := some project }
  let owner := (← get).project project
  match Project.nameBelow? owner.root entry with
  | none => throw (.outsideProject entry owner.name)
  | some dotted =>
    let file ← fileAt entry owner.component owner.root (Text.pieces '.' dotted)
    return (project, file)

/-- Loads a file, counts its function `main` as referred to, and makes its header. -/
def translate (project : ProjectId) (file : ComponentId) : Build Compiled := do
  load file
  match (← component file).child? mainName with
  | some function => markReferenced function
  | none => pure ()
  let path ← header file
  return { project, path, text := (← component file).buffer.text }

/-- **Compiling is to find the file of the entry and to translate it.** -/
theorem compile_eq (settings : Settings) (entry : Path) :
    compile settings entry
      = entryFile settings entry >>= fun found => translate found.1 found.2 := by
  unfold compile entryFile translate
  simp only [bind_assoc]
  refine bind_congr fun entry => bind_congr fun ws => ?_
  split
  · rfl
  · split
    · rfl
    · simp only [bind_assoc]
      refine bind_congr fun ws => ?_
      cases ws.projectAround? entry
      all_goals
        simp only [bind_assoc]
        refine bind_congr fun project => bind_congr fun _ => bind_congr fun ws => ?_
        cases Project.nameBelow? (ws.project project).root entry with
        | none => rfl
        | some dotted =>
          dsimp only
          rw [bind_assoc]
          rfl

end Build

/-! ## Entries and projects -/

theorem Project.nameBelow?_eq_some {root p : Path} {dotted : String} (h : nameBelow? root p = some dotted) :
    ∃ steps, p.stepsBelow? root = some steps ∧ steps ≠ [] ∧ dotted = Text.glue "." steps := by
  rw [nameBelow?] at h
  split at h
  · cases h
  · cases h
  · next steps hne hsteps =>
    cases h
    exact ⟨steps, hsteps, hne, rfl⟩

namespace Workspace

variable {ws : Workspace}

theorem projectAround?_lt {p : Path} {id : ProjectId} (h : ws.projectAround? p = some id) :
    id < ws.projects.size := by
  have hfold : ∀ (l : List ProjectId) (best? : Option ProjectId),
      (∀ x ∈ l, x < ws.projects.size) → (∀ x, best? = some x → x < ws.projects.size) →
      ∀ x, l.foldl (fun best? id => some (ws.innerProject best? id)) best? = some x →
        x < ws.projects.size := by
    intro l
    induction l with
    | nil => exact fun _ _ hbest => hbest
    | cons y ys ih =>
      intro best? hl hbest
      refine ih _ (fun x hx => hl x (.tail _ hx)) ?_
      rintro _ ⟨⟩
      unfold Workspace.innerProject
      split
      · exact hl y (.head _)
      · next best =>
        split
        · exact hbest best rfl
        · exact hl y (.head _)
  refine hfold _ none (fun x hx => ?_) (by rintro _ ⟨⟩) id h
  exact List.mem_range.mp (List.mem_filter.mp hx).1

/-- The root of the project that an entry is compiled in. Where there is no project around it, one is
registered for its directory. -/
def rootAround? (ws : Workspace) (entry : Path) : Option Path :=
  match ws.projectAround? entry with
  | some project => some (ws.project project).root
  | none => entry.parent?

/-- No step from the root of its project down to an entry has a dot in it. -/
def PlainEntry (ws : Workspace) (entry : Path) : Prop :=
  ∀ s ∈ ((ws.rootAround? entry).bind entry.stepsBelow?).getD [], '.' ∉ s.toList

instance (ws : Workspace) (entry : Path) : Decidable (ws.PlainEntry entry) :=
  inferInstanceAs (Decidable (∀ s ∈ ((ws.rootAround? entry).bind entry.stepsBelow?).getD [], _))

/-- The component is where the names on the way to an entry lead. -/
def EntryAt (ws : Workspace) (entry : Path) (id : ComponentId) : Prop :=
  ∃ parent dir, (ws.component id).parent? = some parent ∧ ws.Stands parent dir ∧
    Path.IsPlain (ws.component id).name ∧
    entry = dir.join ⟨(ws.component id).name ++ "." ++ lightSuffix⟩

/-- The component is on the way to an entry that the segments lead to from there. -/
def OnTheWay (ws : Workspace) (entry : Path) (id : ComponentId) (dir : Path) : List String → Prop
  | [] => ws.EntryAt entry id
  | segment :: rest => ws.Stands id dir ∧ (∀ s ∈ segment :: rest, Path.IsPlain s) ∧
      entry = dir.lightBelow (segment :: rest)

variable {id : ComponentId} {rest : List String} {dir entry : Path} {segment : String}

theorem OnTheWay.step {next : ComponentId} (h : ws.OnTheWay entry id dir (segment :: rest))
    (hparent : (ws.component next).parent? = some id) (hname : (ws.component next).name = segment) :
    ws.OnTheWay entry next (dir.join ⟨segment⟩) rest := by
  obtain ⟨hstands, hplain, hentry⟩ := h
  have hsegment : Path.IsPlain (ws.component next).name := hname ▸ hplain segment (.head _)
  subst hname
  cases rest with
  | nil => exact ⟨id, dir, hparent, hstands, hsegment, hentry⟩
  | cons t rest =>
    exact ⟨.inside hparent hstands hsegment, fun s hs => hplain s (.tail _ hs), hentry⟩

theorem OnTheWay.reach {P : Change.Class} {ws' : Workspace} (hs : ws.Sound) (hreach : Reach P ws ws')
    (hid : id < ws.size) (h : ws.OnTheWay entry id dir (segment :: rest)) :
    ws'.OnTheWay entry id dir (segment :: rest) :=
  ⟨h.1.reach hs hreach hid, h.2⟩

/-- What is asked for on the way to an entry is in its place. -/
theorem OnTheWay.asked {B E : Prop} (hB : B → entry.isAbsolute = true ∧ dir.isAbsolute = true)
    (hE : E → ws.OnTheWay entry id dir (segment :: rest)) (hfile : ws.disk.isFile entry = true) :
    ws.Asked B E (some id) segment (if rest.isEmpty then entry else dir.join ⟨segment⟩) := by
  refine ⟨fun h => ?_, fun h above habove _ => ?_⟩
  · split
    · exact (hB h).1
    · rw [isAbsolute_join, (hB h).2, Bool.or_true]
  · obtain ⟨hstands, -, hentry⟩ := hE h
    rw [habove.unique hstands]
    cases rest with
    | nil =>
      refine .inr ⟨?_, lightSuffix, .light, rfl, hentry⟩
      obtain ⟨content, hstat⟩ := Disk.isFile_iff.mp hfile
      show ws.disk.isDirectory entry = false
      rw [Disk.isDirectory, hstat]
    | cons t rest => exact .inl rfl

/-- The names of an entry lead from the root of its project to it. -/
theorem Rooted.onTheWay {B E : Prop} (hBE : E → B) {p : Project} (h : ws.Rooted B E p)
    (hnormal : entry.normal = entry) (hlight : ofPath? entry = some .light) {dotted : String}
    (hdotted : Project.nameBelow? p.root entry = some dotted)
    (hplain : ∀ steps, entry.stepsBelow? p.root = some steps → ∀ s ∈ steps, '.' ∉ s.toList) (hE : E) :
    ws.OnTheWay entry p.component p.root (Text.pieces '.' dotted) := by
  obtain ⟨steps, hsteps, hne, rfl⟩ := Project.nameBelow?_eq_some hdotted
  have hdots := hplain steps hsteps
  obtain ⟨habsolute, hroot⟩ := h.absolute (hBE hE)
  obtain ⟨hnames, hentry⟩ := eq_lightBelow hnormal hroot habsolute hlight hsteps hdots
  obtain ⟨f, hf, hpath, hdirectory⟩ := h.file
  have hstands : ws.Stands p.component p.root := by
    have hfamily : f.family = p.root := by rw [SourceFile.family, hdirectory hE, if_pos rfl, hpath]
    exact hfamily ▸ Stands.root h.top hf
  have hpieces : Text.pieces '.' (Text.glue "." steps) = steps := Text.pieces_glue hne hdots
  rw [hpieces]
  cases steps with
  | nil => exact absurd rfl hne
  | cons s rest => exact ⟨hstands, hnames, hentry hne⟩

end Workspace

/-! ## Finding the file -/

namespace Build

variable {B E : Prop} {S : Spelling → Prop} {ws : Workspace}

theorem runs_absoluteArgument {P : Change.Class} (p : Path) :
    Runs P (absoluteArgument p) ws fun q ws' => ws' = ws ∧ absolute? ws.disk.current p = some q := by
  refine .get fun _ => ?_
  split
  · next q hq => exact .pure ⟨rfl, hq⟩
  · exact .throw _

variable {entry root : Path} {settings : Settings}

theorem runs_openProject (hspelling : S settings.spelling) {name : String}
    (hasked : ∀ q, absolute? ws.disk.current root = some q → ws.Asked B E none name q) :
    Runs (Plans B E S) (openProject settings name root) ws fun id ws' =>
      id < ws'.projects.size ∧ absolute? ws.disk.current root = some (ws'.project id).root ∧
        ws'.Rooted B E (ws'.project id) := by
  refine .bind (runs_absoluteArgument root) ?_
  rintro q ws - - ⟨rfl, hq⟩
  refine (runs_registerProject (hasked q hq) _ hspelling).weaken fun id ws' _ _ hid => ?_
  exact ⟨hid.1, hid.2.1 ▸ hq, hid.2.2⟩

theorem asked_parent (hcurrent : B → ws.disk.current.isAbsolute = true) (hBE : E → B)
    (hnormal : entry.normal = entry) (habsolute : B → entry.isAbsolute = true)
    (hlight : ofPath? entry = some .light) (hfile : ws.disk.isFile entry = true) (name : String)
    (hroot : absolute? ws.disk.current (entry.parent?.getD ⟨"."⟩) = some root) :
    ws.Asked B E none name root ∧ (B → entry.parent? = some root) := by
  have hparent : B → entry.parent? = some root ∧ (ws.disk.isDirectory root = true) := by
    intro hB
    obtain ⟨ps, s, hentry, hparent, hps, hspelled, hhead⟩ :=
      exists_parent hnormal (habsolute hB) hlight
    have hparts := parts_ofParts hspelled.of_append.1
    have hself : (ofParts ps).normal = ofParts ps := by
      rw [normal, hparts, normalParts_of_isNormal hps]
    have habove : (ofParts ps).isAbsolute = true := by rw [isAbsolute_iff, hparts, hhead]
    rw [hparent, Option.getD_some, absolute?] at hroot
    split at hroot
    · cases hroot
    · rw [join, if_pos habove, hself] at hroot
      cases hroot
      rw [hentry] at hfile
      exact ⟨hparent, Disk.isDirectory_of_isFile hspelled hps hhead hfile⟩
  refine ⟨⟨fun hB => ⟨?_, ?_⟩, fun hE => (hparent (hBE hE)).2⟩, fun hB => (hparent hB).1⟩
  · exact isAbsolute_of_absolute? (hcurrent hB) hroot
  · exact normal_of_absolute? hroot

/-- **The file of an entry is where the names on the way to it lead.** -/
theorem runs_fileAt (segments : List String) {current : ComponentId} {dir : Path}
    (hcurrent : current < ws.size) (hB : B → entry.isAbsolute = true ∧ dir.isAbsolute = true)
    (hE : E → ws.OnTheWay entry current dir segments) (hfile : ws.disk.isFile entry = true) :
    Runs (Plans B E S) (fileAt entry current dir segments) ws fun id ws' =>
      id < ws'.size ∧ (E → ws'.EntryAt entry id) := by
  induction segments generalizing ws current dir with
  | nil => exact .pure ⟨hcurrent, hE⟩
  | cons segment rest ih =>
    have hdir : B → entry.isAbsolute = true ∧ (dir.join ⟨segment⟩).isAbsolute = true := by
      intro h
      exact ⟨(hB h).1, by rw [isAbsolute_join, (hB h).2, Bool.or_true]⟩
    refine .component fun hs => ?_
    split
    · next child hchild =>
      obtain ⟨hlt, hparent, hname, -⟩ := hs.child hchild
      exact ih hlt hdir (fun h => (hE h).step hparent hname) hfile
    · have hparent : ∀ parent, some current = some parent → parent < ws.size := by
        rintro _ ⟨⟩
        exact hcurrent
      refine .bind (runs_addFile hparent (Workspace.OnTheWay.asked hB hE hfile)) ?_
      rintro next ws₁ _ hreach₁ ⟨_, hlt, hspot⟩
      refine ih hlt hdir (fun h => ?_) (by rwa [hreach₁.disk_eq hs])
      exact ((hE h).reach hs hreach₁ hcurrent).step (congrArg Prod.fst hspot)
        (congrArg (fun spot => spot.2.1) hspot)

theorem runs_fileBelow (hBE : E → B) (hnormal : entry.normal = entry)
    (habsolute : B → entry.isAbsolute = true) (hlight : ofPath? entry = some .light)
    (hfile : ws.disk.isFile entry = true) {project : ProjectId} (hproject : project < ws.projects.size)
    (hrooted : B → ws.Rooted B E (ws.project project))
    (hplain : E → ∀ steps, entry.stepsBelow? (ws.project project).root = some steps →
      ∀ s ∈ steps, '.' ∉ s.toList) :
    Runs (Plans B E S)
      (do
        modify fun ws => { ws with active? := some project }
        let owner := (← get).project project
        match Project.nameBelow? owner.root entry with
        | none => throw (.outsideProject entry owner.name)
        | some dotted =>
          let file ← fileAt entry owner.component owner.root (Text.pieces '.' dotted)
          return (project, file)) ws fun found ws' =>
        found.2 < ws'.size ∧ (E → ws'.EntryAt entry found.2) := by
  refine .of_sound fun hs => ?_
  have hactive : Runs (Plans B E S)
      (modify fun ws => { ws with active? := some project } : Build Unit) ws
      fun _ ws' => ws' = (Change.active (some project)).apply ws :=
    Runs.change (.active (some project)) rfl trivial (.active _) rfl
  refine .bind hactive ?_
  rintro _ _ - - rfl
  have howner : ((Change.active (some project)).apply ws).project project = ws.project project := rfl
  have hlt : (ws.project project).component < ((Change.active (some project)).apply ws).size := by
    refine hs.project_lt _ ?_
    rw [Workspace.project, Array.getD_eq_getD_getElem?, Array.getElem?_eq_getElem hproject]
    exact Array.getElem_mem hproject
  refine .get fun _ => ?_
  rw [howner]
  dsimp only
  split
  · exact .throw _
  · next dotted hdotted =>
    refine .bind (runs_fileAt _ hlt (fun hB => ⟨habsolute hB, ((hrooted hB).absolute hB).1⟩) ?_ hfile)
      fun file _ _ _ hfound => .pure hfound
    intro hE
    have hroot : ((Change.active (some project)).apply ws).Rooted B E (ws.project project) :=
      (hrooted (hBE hE)).of_spot rfl
    exact hroot.onTheWay hBE hnormal hlight hdotted (hplain hE) hE

/-- **Finding the file of an entry.** Where no step to it has a dot in it, the file is where the names on
the way to it lead. -/
theorem runs_entryFile (hBE : E → B) (hspelling : S settings.spelling)
    (hrooted : B → ∀ id < ws.projects.size, ws.Rooted B E (ws.project id))
    (hcurrent : B → ws.disk.current.isAbsolute = true)
    (hplain : E → ∀ e, absolute? ws.disk.current entry = some e → ws.PlainEntry e) :
    Runs (Plans B E S) (entryFile settings entry) ws fun found ws' =>
      found.2 < ws'.size ∧ ∃ e, absolute? ws.disk.current entry = some e ∧
        (E → ws'.EntryAt e found.2) := by
  refine .of_sound fun hs => ?_
  refine .bind (runs_absoluteArgument entry) ?_
  rintro e ws - - ⟨rfl, he⟩
  have hnormal := normal_of_absolute? he
  have habsolute : B → e.isAbsolute = true := fun hB => isAbsolute_of_absolute? (hcurrent hB) he
  refine .get fun _ => .ite (fun _ => .throw _) fun hfile => ?_
  refine .ite (fun _ => .throw _) fun hlight => ?_
  rw [Bool.not_eq_true, Bool.not_eq_false'] at hfile
  rw [not_not] at hlight
  have hsteps : ∀ (root : Path), ws.rootAround? e = some root → E →
      ∀ steps, e.stepsBelow? root = some steps → ∀ s ∈ steps, '.' ∉ s.toList := by
    intro root hroot hE steps hsteps s hmem
    refine hplain hE e he s ?_
    rw [hroot, Option.bind_some, hsteps]
    exact hmem
  refine .get fun _ => ?_
  split
  · next project hproject =>
    have hlt := Workspace.projectAround?_lt hproject
    have hroot : ws.rootAround? e = some (ws.project project).root := by
      rw [Workspace.rootAround?, hproject]
    exact (runs_fileBelow hBE hnormal habsolute hlight hfile hlt (fun hB => hrooted hB project hlt)
      (hsteps _ hroot)).weaken fun _ _ _ _ h => ⟨h.1, e, he, h.2⟩
  · next hnone =>
    refine .bind (runs_openProject hspelling fun q hq =>
      (asked_parent hcurrent hBE hnormal habsolute hlight hfile _ hq).1) ?_
    rintro project ws₁ - hreach₁ ⟨hlt, hroot, hrooted₁⟩
    have hparent : B → ws.rootAround? e = some (ws₁.project project).root := by
      intro hB
      rw [Workspace.rootAround?, hnone]
      exact (asked_parent hcurrent hBE hnormal habsolute hlight hfile "" hroot).2 hB
    exact (runs_fileBelow hBE hnormal habsolute hlight (by rwa [hreach₁.disk_eq hs]) hlt (fun _ => hrooted₁)
      fun hE => hsteps _ (hparent (hBE hE)) hE).weaken fun _ _ _ _ h => ⟨h.1, e, he, h.2⟩

/-! ## Translating it -/

/-- **Translating a file decides its header.** -/
theorem runs_translate {F L H : Prop} (hp : ws.Primed F L H) (project : ProjectId) {file : ComponentId}
    (hfile : file < ws.size) :
    Runs (Emits F L H fun _ => False) (translate project file) ws fun r ws' =>
      r.project = project ∧ ws'.Decided file := by
  refine .of_sound fun hs => ?_
  refine .bind (makes_loadOnce hp.toReady hfile).emits fun _ ws₁ _ hreach₁ _ => ?_
  have hheader : ∀ ws', Reach (Emits F L H fun _ => False) ws₁ ws' →
      Runs (Emits F L H fun _ => False)
        (do
          let path ← header file
          return { project, path, text := (← component file).buffer.text : Compiled }) ws'
        fun r ws' => r.project = project ∧ ws'.Decided file := by
    intro ws' hreach'
    have hrun := runs_header ((hreach₁.trans hreach').primed hs hp) (hreach'.lt (hreach₁.lt hfile))
    refine .bind (hrun.mono (Emits.mono fun _ => False.elim)) ?_
    rintro _ ws₂ _ _ ⟨output, houtput, _⟩
    exact .component fun _ => .pure ⟨rfl, Workspace.decided_of_output? houtput⟩
  refine .component fun _ => ?_
  split
  · refine .bind (makes_markReferenced _).emits fun _ ws₂ _ hreach₂ _ => ?_
    exact hheader ws₂ hreach₂
  · exact hheader ws₁ (.refl _ ws₁)

end Build

end LightHeaders
