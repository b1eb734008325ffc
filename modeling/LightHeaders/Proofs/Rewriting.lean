import LightHeaders.Proofs.Clearing
import LightHeaders.Proofs.HeaderRequests
import LightHeaders.Proofs.Retakes

set_option autoImplicit false

/-! # Writing a file again

A file whose header was just written is cleared and written once more. The second time its names are
resolved and the headers that it includes are there, so nothing but its pages changes: the lines of the
includes are put down as before, and the body is written next to that of the first run
(`Proofs/Retakes.lean`). The same text comes out (`History.rewritten_as_before`).

That needs two things. Clearing stops at what was not written, while a function that was lifted out of
another one is written from the file. So what was written has to be written together with the component
around it (`Workspace.WrittenTogether`), or its text stays and is written twice. And the libraries have to
be complete before the body is written; those that are found in the body are included the second time
only (`rewritten_otherwise`).
-/

namespace LightHeaders

open Workspace Build Change Component

namespace Build

/-! ## The includes once more -/

/-- From `ws` to `ws'` pages changed only, and no line that an instruction remembers. -/
structure Retouched (ws ws' : Workspace) : Prop where
  sound : ws'.Sound
  bare : ws'.bare = ws.bare
  line? : ∀ i, ws'.line? i = ws.line? i

variable {ws : Workspace}

theorem Retouched.trans {ws₁ ws₂ : Workspace} (h : Retouched ws ws₁) (h' : Retouched ws₁ ws₂) :
    Retouched ws ws₂ :=
  ⟨h'.sound, h'.bare.trans h.bare, fun i => (h'.line? i).trans (h.line? i)⟩

section Includes

variable {ws : Workspace} {f : ComponentId} {lines : List HeaderLine} {included : List String}

theorem exists_endLine (ws : Workspace) (id : ComponentId) : ∃ n ws', endLine id false ws = .ok n ws' := by
  have hwrite : write id "\n" ws = .ok () ((edit id (.text "\n")).apply ws) := rfl
  rw [endLine, bind_of_ok hwrite, bind_get]
  generalize (edit id (.text "\n")).apply ws = ws₁
  cases ws₁.fileOf? id with
  | none | some => exact ⟨_, _, rfl⟩

theorem exists_writePlainLine (h : ws.Begun f lines included) (hs : ws.Sound) (hf : ws.isFile f = true)
    (text : String) : ∃ ws', writePlainLine f text ws = .ok () ws' ∧ Retouched ws ws' ∧
      ws'.Begun f (lines ++ [{ text := text }]) included := by
  obtain ⟨ws', hrun⟩ : ∃ ws', writePlainLine f text ws = .ok () ws' := by
    have hwrite : write f text ws = .ok () ((edit f (.text text)).apply ws) := rfl
    rw [writePlainLine, bind_of_ok hwrite]
    generalize (edit f (.text text)).apply ws = ws₁
    obtain ⟨n, ws', hend⟩ := exists_endLine ws₁ f
    exact ⟨ws', bind_of_ok hend⟩
  obtain ⟨hreach, hbegun⟩ := (runs_plainLine h hf text).of_ok hs hrun
  exact ⟨ws', hrun, ⟨hreach.sound hs, hreach.bare_eq hs, fun i => hreach.line?_eq hs fun _ => False.elim⟩,
    hbegun⟩

theorem exists_libraries (h : ws.Begun f lines included) (hs : ws.Sound) (hf : ws.isFile f = true)
    (libraries : List String) :
    ∃ ws', (libraries.forM fun library => writePlainLine f ("#include <" ++ library ++ ">")) ws = .ok () ws' ∧
      Retouched ws ws' ∧ ws'.Begun f (lines ++ libraries.map libraryLine) included := by
  induction libraries generalizing ws lines with
  | nil => exact ⟨ws, rfl, ⟨hs, rfl, fun _ => rfl⟩, by rwa [List.map_nil, List.append_nil]⟩
  | cons library libraries ih =>
    obtain ⟨ws₁, hrun, hone, hbegun⟩ := exists_writePlainLine h hs hf ("#include <" ++ library ++ ">")
    have hf₁ : ws₁.isFile f = true := (isFile_of_bare hone.bare f).trans hf
    obtain ⟨ws₂, hrest, hall, hbegun₂⟩ := ih hbegun hone.sound hf₁
    exact ⟨ws₂, (bind_of_ok hrun).trans hrest, hone.trans hall, by rwa [List.append_assoc] at hbegun₂⟩

/-- **A file can be included if its path is decided and C++ is read.** -/
theorem exists_includeHeader {before : List String}
    (h : ws.Begun f (lines ++ before.eraseDups.map includeLine) before.eraseDups) (hs : ws.Sound)
    (hf : ws.isFile f = true) {dep : ComponentId} {path : String} (hpath : ws.headerPath? dep = some path)
    (hreader : ws.readers.contains .cpp = true) :
    ∃ ws', (discard <| includeHeader f dep) ws = .ok () ws' ∧ Retouched ws ws' ∧
      ws'.Begun f (lines ++ (before ++ [path]).eraseDups.map includeLine)
        (before ++ [path]).eraseDups := by
  -- the path is decided, so asking for it changes nothing
  have haround : headerAroundWith header dep ws = .ok path ws := by
    obtain ⟨g, hg, hpath⟩ := Option.bind_eq_some_iff.mp hpath
    obtain ⟨output, houtput, rfl⟩ := Option.map_eq_some_iff.mp hpath
    rw [headerAroundWith, bind_get, hg]
    exact header_of_decided houtput
  obtain ⟨file, hfile⟩ : ∃ file, (ws.component f).file? = some file := Option.isSome_iff_exists.mp hf
  have hincluded : file.included = before.eraseDups := by
    have := h.included
    rwa [included, hfile] at this
  suffices hsuffices : ∃ ws', includeHeader f dep ws = .ok path ws' ∧ Retouched ws ws' ∧
      ws'.Begun f (lines ++ (before ++ [path]).eraseDups.map includeLine)
        (before ++ [path]).eraseDups by
    obtain ⟨ws', hrun, hrest⟩ := hsuffices
    exact ⟨ws', bind_of_ok hrun, hrest⟩
  rw [includeHeader, includeWith, bind_of_ok haround, bind_component, hfile, Option.any_some, hincluded,
    eraseDups_concat]
  cases hcontains : before.eraseDups.contains path with
  | true => exact ⟨ws, rfl, ⟨hs, rfl, fun _ => rfl⟩, h⟩
  | false =>
    have hneed : needReader .cpp ws = .ok () ws := by
      rw [needReader, bind_get, hreader]
      rfl
    obtain ⟨ws₁, hrun, hone, hbegun⟩ :=
      exists_writePlainLine h hs hf ("#include \"" ++ Literal.escape path ++ "\"")
    have hf₁ : ws₁.isFile f = true := (isFile_of_bare hone.bare f).trans hf
    have hnoted := begun_included hbegun hone.sound hf₁ path
    refine ⟨(edit f (.file (.included path))).apply ws₁, ?_, hone.trans ⟨?_, ?_, fun _ => rfl⟩, ?_⟩
    · rw [if_neg Bool.false_ne_true, bind_of_ok hneed, bind_of_ok hrun]
      rfl
    · exact hone.sound.apply _ trivial
    · refine ws₁.bare_modify f fun c => ?_
      simp only [Edit.apply, Component.bare]
      cases c.kind <;> rfl
    · rw [if_neg Bool.false_ne_true, List.map_append, ← List.append_assoc]
      exact hnoted

variable {paths : List String}

theorem exists_includes (before : List String)
    (h : ws.Begun f (lines ++ before.eraseDups.map includeLine) before.eraseDups) (hs : ws.Sound)
    (hf : ws.isFile f = true) {deps : List ComponentId} (hpaths : deps.mapM ws.headerPath? = some paths)
    (hreads : ReadsHeaders paths ws) :
    ∃ ws', (deps.forM fun dep => discard <| includeHeader f dep) ws = .ok () ws' ∧ Retouched ws ws' ∧
      ws'.Begun f (lines ++ (before ++ paths).eraseDups.map includeLine)
        (before ++ paths).eraseDups := by
  induction deps generalizing ws before paths with
  | nil =>
    rw [List.mapM_nil] at hpaths
    cases hpaths
    exact ⟨ws, rfl, ⟨hs, rfl, fun _ => rfl⟩, by rwa [List.append_nil]⟩
  | cons dep deps ih =>
    rw [List.mapM_cons] at hpaths
    obtain ⟨path, hpath, hpaths⟩ := Option.bind_eq_some_iff.mp hpaths
    obtain ⟨rest, hrest, hcons⟩ := Option.bind_eq_some_iff.mp hpaths
    cases hcons
    have hreader := hreads (List.cons_ne_nil _ _)
    obtain ⟨ws₁, hrun, hone, hbegun⟩ := exists_includeHeader h hs hf hpath hreader
    have hf₁ : ws₁.isFile f = true := (isFile_of_bare hone.bare f).trans hf
    have hrest₁ : deps.mapM ws₁.headerPath? = some rest := by
      rw [headerPath?_of_bare hone.bare]
      exact hrest
    have hreads₁ : ReadsHeaders rest ws := fun _ => hreader
    obtain ⟨ws₂, hthen, hall, hbegun₂⟩ := ih _ hbegun hone.sound hf₁ hrest₁ (hreads₁.of_bare hone.bare)
    exact ⟨ws₂, (bind_of_ok hrun).trans hthen, hone.trans hall, by rwa [List.append_assoc] at hbegun₂⟩

/-- **A file that is cleared can be written up to its body.** What comes after that is its text. -/
theorem render_of_addBody (hs : ws.Sound) (hl : ws.Loaded) (hhome : ws.ForwardsHome) {file : SourceFile}
    (hfile : (ws.component f).file? = some file) (hsettled : file.settled = true)
    (hblank : ((edit f .written).apply ws).Begun f [] [])
    (hpaths : file.dependencies.mapM ws.headerPath? = some paths) (hreads : ReadsHeaders paths ws) :
    ∃ ws₁, Retouched ws ws₁ ∧
      ws₁.Begun f (file.libraries.map libraryLine ++ paths.eraseDups.map includeLine)
        paths.eraseDups ∧
      ∀ ws₂, addBody (fun file id => discard <| includeHeader file id) f ws₁ = .ok () ws₂ →
        ws₂.bare = ws.bare → render f ws = .ok (ws₂.text f) ws₂ := by
  have hf := isFile_of_file? hfile
  set marked := (edit f .written).apply ws with hmarked
  have hbare : marked.bare = ws.bare := ws.bare_modify f fun _ => rfl
  have hmark : Retouched ws marked := ⟨hs.apply _ trivial, hbare, fun _ => rfl⟩
  have hfm : marked.isFile f = true := (isFile_of_bare hbare f).trans hf
  have hfile' : (marked.component f).file? = some file := by
    rw [hmarked, apply, component_modify_eq]
    split <;> exact hfile
  obtain ⟨ws₁, hlibraries, hone, hbegun₁⟩ := exists_libraries hblank hmark.sound hfm file.libraries
  have htoOne := hmark.trans hone
  have hf₁ : ws₁.isFile f = true := (isFile_of_bare htoOne.bare f).trans hf
  have hpaths₁ : file.dependencies.mapM ws₁.headerPath? = some paths := by
    rw [headerPath?_of_bare htoOne.bare]
    exact hpaths
  have hnone : ws₁.Begun f (file.libraries.map libraryLine ++
      ([] : List String).eraseDups.map includeLine) ([] : List String).eraseDups := by
    simpa using hbegun₁
  obtain ⟨ws₂, hincludes, htwo, hbegun₂⟩ := exists_includes [] hnone hone.sound hf₁ hpaths₁
    (hreads.of_bare htoOne.bare)
  refine ⟨ws₂, htoOne.trans htwo, hbegun₂, fun ws₃ hbody hbare₃ => ?_⟩
  have htext : addFileText (fun file id => discard <| includeHeader file id)
      (renderInside fun file id => discard <| includeHeader file id) f marked = .ok () ws₃ := by
    rw [addFileText, bind_of_ok (settle_of_settled (hl.of_bare hbare) hfile' hsettled), bind_component, hfile']
    dsimp only
    rw [bind_of_ok hlibraries, bind_of_ok hincludes]
    exact hbody
  have hforward : (ws₃.component f).forward? = none :=
    (forward?_of_bare hbare₃ f).trans (hhome.forward?_file hf)
  have hupdate : update f (fun c => { c with written := true }) ws = .ok () marked := rfl
  rw [render, renderWith, renderBelow, bind_component, bind_of_ok hupdate, addOwnText,
    kind_of_file? hfile]
  dsimp only
  rw [bind_of_ok htext, handOn, bind_component, hforward]
  rfl

end Includes

/-- Names are resolved when a header is prepared. -/
theorem Awaits.settled {F : Prop} {linked : Workspace} {f : ComponentId} {file file' : SourceFile}
    {output : Path} (h : Awaits F ws f file) (hrun : prepare f file.path ws = .ok output linked)
    (hfile' : (linked.component f).file? = some file') : file'.settled = true := by
  obtain ⟨ws₁, file₁, -, hs₁, halike, hfile₁, -, -, -, -, -, hsettle⟩ := h.exists_settle hrun
  have hl₁ := halike.loaded (h.primed.loaded trivial)
  cases hsettled : file₁.settled with
  | true =>
    rw [settle_of_settled hl₁ hfile₁ hsettled] at hsettle
    cases hsettle
    rw [hfile₁] at hfile'
    cases hfile'
    exact hsettled
  | false =>
    have hnoted := noted_of_settle hs₁ hl₁ hfile₁ hsettled hsettle
    rw [hnoted.file?_eq hfile₁] at hfile'
    cases hfile'
    rfl

end Build

/-! ## The body once more -/

namespace Workspace

variable {ws : Workspace} {f : ComponentId}

theorem exists_parent_of_rendered (hs : ws.Sound) {z : ComponentId} (h : ws.Rendered f z) :
    ∃ parent, z ∈ (ws.component parent).childIds := by
  have hinline : ∀ {y}, (∃ parent, y ∈ (ws.component parent).childIds) → ws.Inline y z →
      ∃ parent, z ∈ (ws.component parent).childIds := by
    intro y hy hz
    cases hz with
    | refl => exact hy
    | step _ child => exact ⟨_, (of_mem_bodyOf child).1⟩
  rcases h with ⟨y, hy, hz⟩ | ⟨y, hy, hz⟩
  · refine hinline ?_ hz
    obtain ⟨prune, hvisits⟩ : ∃ prune, ws.Visits f prune y := ⟨true, (hs.mem_lifted_iff.mp hy).1⟩
    clear hy hz
    induction hvisits with
    | child h => exact ⟨_, mem_childIds_of_mem_writtenChildren h⟩
    | deeper _ _ ih => exact ih
  · exact hinline ⟨f, (of_mem_bodyOf hy).1⟩ hz

end Workspace

namespace Retake

/-- **Two workspaces with the same tree whose file was begun with the same lines** echo each other. -/
theorem echo_of_begun {E : Retake} {lines : List HeaderLine} {included included' : List String}
    (hb : E.again.bare = E.start.bare) (hf : E.start.isFile E.file = true)
    (h : E.start.Begun E.file lines included) (h' : E.again.Begun E.file lines included') :
    E.Echo E.start E.again := by
  have hfileOf? : ∀ z, E.again.fileOf? z = E.start.fileOf? z := fileOf?_of_bare hb
  refine ⟨rfl, hb, fun z hz => ?_, fun i => .inr ⟨rfl, rfl⟩, fun z hz hne => ?_⟩
  · by_cases heq : z = E.file
    · subst heq
      have hf' : E.again.isFile E.file = true := (isFile_of_bare hb E.file).trans hf
      obtain ⟨file, hfile⟩ : ∃ file, (E.start.component E.file).file? = some file :=
        Option.isSome_iff_exists.mp hf
      obtain ⟨file', hfile'⟩ : ∃ file, (E.again.component E.file).file? = some file :=
        Option.isSome_iff_exists.mp hf'
      have hnext := h'.nextLine.trans h.nextLine.symm
      rw [nextLine, nextLine, hfile, hfile'] at hnext
      rw [sheet, sheet, hfile, hfile']
      exact Prod.ext (h'.text.trans h.text.symm) (congrArg some hnext)
    · have hno : ∀ ws : Workspace, ws.bare = E.start.bare → (ws.component z).file? = none := by
        intro ws hb
        have hno : E.start.isFile z ≠ true := fun hfile =>
          heq (Option.some.inj ((E.sound.fileOf?_self hfile).symm.trans hz))
        rw [← isFile_of_bare hb] at hno
        exact Option.not_isSome_iff_eq_none.mp hno
      rw [sheet, sheet, hno _ rfl, hno _ hb]
      exact congrArg (·, none) ((h'.empty z heq ((hfileOf? z).trans hz)).trans (h.empty z heq hz).symm)
  · refine .inl (Classical.byContradiction fun heq => hne (h.empty z heq hz))

end Retake

namespace Build

section Again

variable {ws ended : Workspace} {f : ComponentId} {file : SourceFile} {paths : List String}
  {includeFile : ComponentId → ComponentId → Build Unit}

/-- What is known once the body of a file was written behind its includes. -/
structure Finished (f : ComponentId) (ws ended : Workspace) : Prop where
  bare : ended.bare = ws.bare
  listed : ∀ z, ws.fileOf? z = some f → z ≠ f → (ended.component z).written = true →
    ws.isFile z = false ∧ ∃ parent, z ∈ (ws.component parent).childIds
  inked : ∀ z, ws.fileOf? z = some f → ended.text z ≠ "" → ended.Inked f z

theorem finished_of_addBody (hs : ws.Sound) (hl : ws.Loaded) (hhome : ws.ForwardsHome)
    (hf : ws.isFile f = true) (hpaths : file.dependencies.mapM ws.headerPath? = some paths)
    (hbegun : ws.Begun f (file.libraries.map libraryLine ++
      paths.eraseDups.map includeLine) paths.eraseDups)
    (hbody : addBody includeFile f ws = .ok () ended) : Finished f ws ended := by
  obtain ⟨hreach, -⟩ := (runs_body hhome hl hf hpaths hbegun).of_ok hs hbody
  refine ⟨hreach.bare_eq hs, fun z hz hne hwritten => ?_, ?_⟩
  · -- nothing but the includes was written before, so what is marked was rendered into the file
    have hrendered : ws.Rendered f z := Classical.byContradiction fun hnot => by
      rw [hreach.written_eq hs hnot, hbegun.fresh z hne hz] at hwritten
      cases hwritten
    refine ⟨?_, exists_parent_of_rendered hs hrendered⟩
    refine Bool.eq_false_iff.mpr fun hfile => hne ?_
    exact Option.some.inj ((hs.fileOf?_self hfile).symm.trans hz)
  · -- the run is its own echo
    let E : Retake := ⟨ws, ws, f, hs, hl, hhome⟩
    have hrepeats : E.Repeats (fun _ => False) (addBody includeFile f) (addBody includeFile f) :=
      Retake.repeats_addBody hf
    obtain ⟨_, -, hecho, -⟩ := hrepeats ws ws (Retake.echo_of_begun rfl hf hbegun hbegun)
      (fun _ => False.elim) () ended hbody
    exact hecho.inked

end Again

end Build

/-! ## Clearing a file that was written -/

namespace Workspace

/-- What was written in the file `f` was written together with the component around it. -/
def WrittenTogether (ws : Workspace) (f : ComponentId) : Prop :=
  ∀ z parent, ws.fileOf? z = some f → z ≠ f → (ws.component z).written = true →
    (ws.component z).parent? = some parent → (ws.component parent).written = true

theorem writtenTogether_iff (ws : Workspace) (f : ComponentId) : ws.WrittenTogether f ↔
    ∀ z < ws.size, ws.fileOf? z = some f → z ≠ f → (ws.component z).written = true →
      (ws.component z).parent?.all (fun parent => (ws.component parent).written) = true := by
  constructor
  · intro h z _ hz hne hwritten
    rw [Option.all_eq_true]
    exact fun parent hparent => h z parent hz hne hwritten hparent
  · intro h z parent hz hne hwritten hparent
    have hlt : z < ws.size := Nat.lt_of_not_le fun hle => by
      rw [ws.component_of_size_le hle] at hparent
      cases hparent
    exact Option.all_eq_true _ _ |>.mp (h z hlt hz hne hwritten) parent hparent

instance (ws : Workspace) (f : ComponentId) : Decidable (ws.WrittenTogether f) :=
  decidable_of_iff _ (ws.writtenTogether_iff f).symm

/-- The native libraries that a file uses. -/
def libraries? (ws : Workspace) (f : ComponentId) : Option (List String) :=
  (ws.component f).file?.map SourceFile.libraries

theorem ForwardsHome.of_bare {ws ws' : Workspace} (h : ws.ForwardsHome) (hb : ws'.bare = ws.bare) :
    ws'.ForwardsHome := by
  intro id target hforward
  rw [forward?_of_bare hb] at hforward
  rw [isFile_of_bare hb, fileOf?_of_bare hb]
  exact h id target hforward

end Workspace

namespace Build

section Emptied

variable {ws ended cleared : Workspace} {f : ComponentId}

/-- **Clearing reaches what was written if it was written together.** -/
theorem swept_of_writtenTogether (h : Finished f ws ended) (hs : ws.Sound)
    (htogether : ended.WrittenTogether f) {z : ComponentId} (hz : ws.fileOf? z = some f)
    (hwritten : (ended.component z).written = true) : ended.Swept f z := by
  -- the component around it was made before
  induction z using Nat.strong_induction_on with
  | _ z ih =>
    by_cases hne : z = f
    · exact hne ▸ .self
    · obtain ⟨hno, parent, hchild⟩ := h.listed z hz hne hwritten
      obtain ⟨-, hparent, hlt⟩ := hs.of_mem_childIds hchild
      have hof : ws.fileOf? parent = some f := (hs.fileOf?_child hchild hno).symm.trans hz
      have hz' : ended.fileOf? z = some f := (fileOf?_of_bare h.bare z).trans hz
      have hparent' : (ended.component z).parent? = some parent := by
        rwa [parent?_of_bare h.bare]
      have hchild' : z ∈ (ended.component parent).childIds := by
        rwa [childIds_of_bare h.bare]
      have hup := htogether z parent hz' hne hwritten hparent'
      exact (ih parent hlt hof hup).child hup hchild'

/-- **Clearing a file empties all of it just if what was written was written together.** -/
theorem emptied_iff (h : Finished f ws ended) (hs : ws.Sound) (hended : ended.Sound)
    (hcleared : Wiped (ended.Swept f) ended cleared) :
    (∀ z, ws.fileOf? z = some f → cleared.text z = "" ∧ (cleared.component z).written = false) ↔
      ended.WrittenTogether f := by
  constructor
  · intro hempty z parent hz hne hwritten hparent
    rw [fileOf?_of_bare h.bare] at hz
    have hswept : ended.Swept f z := Classical.byContradiction fun hnot => by
      have hafter := (hempty z hz).2
      rw [hcleared.kept z hnot, hwritten] at hafter
      cases hafter
    cases hswept with
    | self => exact absurd rfl hne
    | child _ written mem =>
      rw [(hended.of_mem_childIds mem).2.1] at hparent
      cases hparent
      exact written
  · intro htogether z hz
    by_cases hswept : ended.Swept f z
    · rw [text, hcleared.wiped z hswept]
      exact ⟨rfl, rfl⟩
    · have hunwritten : (ended.component z).written = false := Bool.eq_false_iff.mpr fun hwritten =>
        hswept (swept_of_writtenTogether h hs htogether hz hwritten)
      have htext : ended.text z = "" := Classical.byContradiction fun hne => by
        rcases h.inked z hz hne with rfl | hwritten
        · exact hswept .self
        · rw [hunwritten] at hwritten
          cases hwritten
      rw [text, hcleared.kept z hswept]
      exact ⟨htext, hunwritten⟩

variable {file : SourceFile}

theorem file?_of_wiped (hcleared : Wiped (ended.Swept f) ended cleared)
    (hfile : (ended.component f).file? = some file) :
    (cleared.component f).file? = some { file with nextLine := 1, included := [] } := by
  rw [file?] at hfile
  rw [hcleared.wiped f .self, wiped, file?, Edit.apply, Edit.apply, Kind.file?_mapFile, hfile]
  rfl

/-- **Nothing is on the page of a file that was emptied.** -/
theorem begun_of_emptied (hs : cleared.Sound) (hfile : (cleared.component f).file? = some file)
    (hnext : file.nextLine = 1) (hincluded : file.included = [])
    (hempty : ∀ z, cleared.fileOf? z = some f → cleared.text z = "" ∧ (cleared.component z).written = false) :
    ((edit f .written).apply cleared).Begun f [] [] := by
  have hf := isFile_of_file? hfile
  have hlt := lt_size_of_isFile hf
  have hbare : ((edit f .written).apply cleared).bare = cleared.bare :=
    cleared.bare_modify f fun _ => rfl
  have hfileOf? : ∀ z, ((edit f .written).apply cleared).fileOf? z = cleared.fileOf? z :=
    fileOf?_of_bare hbare
  have hcomponent := cleared.component_modify_eq f Edit.written.apply
  have htext : ∀ z, ((edit f .written).apply cleared).text z = cleared.text z :=
    cleared.modify_keeps f (fun c => c.buffer.text) fun _ => rfl
  have hfile' : (((edit f .written).apply cleared).component f).file? = some file := by
    rw [apply, hcomponent, if_pos ⟨rfl, hlt⟩]
    exact hfile
  refine ⟨(htext f).trans (hempty f (hs.fileOf?_self hf)).1, ?_, ?_, fun z _ hz => ?_, fun z hne hz => ?_⟩
  · rw [nextLine, hfile']
    exact hnext
  · rw [included, hfile']
    exact hincluded
  · exact (htext z).trans (hempty z (hfileOf? z ▸ hz)).1
  · rw [apply, hcomponent, if_neg fun hand => hne hand.1]
    exact (hempty z (hfileOf? z ▸ hz)).2

end Emptied

end Build

/-- **A file that is cleared is written again as before.** In a history in which all writing was asked for
by way of headers, with all files loaded and text forwarded to the file around a component only, let the
header of a source be asked for the first time, and let that succeed. Clearing the file then makes it
count its lines from one again and forget its includes. It takes the text and the mark of being written
from everything in the file just if what was written there was written together with the component around
it. If so, and if the file was found to use no further libraries while its body was written, writing the
file once more gives the text of the header, and the same instructions remember the same lines. -/
theorem History.rewritten_as_before {ws ws' : Workspace} {f : ComponentId} {file : SourceFile} {path : String}
    (h : History DrivenCall ws) (hloaded : ws.Loaded) (hhome : ws.ForwardsHome)
    (hfile : (ws.component f).file? = some file) (hlight : file.language? = some .light)
    (hnew : file.output? = none) (hheader : Build.header f ws = .ok path ws') :
    ∃ output linked cleared,
      Build.prepare f file.path ws = .ok output linked ∧ ws'.disk.readText output = .ok (ws'.text f) ∧
      Build.clear f ws' = .ok () cleared ∧ cleared.nextLine f = 1 ∧ cleared.included f = [] ∧
      ((∀ z, ws'.fileOf? z = some f → cleared.text z = "" ∧ (cleared.component z).written = false) ↔
        ws'.WrittenTogether f) ∧
      (ws'.WrittenTogether f → ws'.libraries? f = linked.libraries? f →
        ∃ again, Build.render f cleared = .ok (ws'.text f) again ∧ ∀ i, again.line? i = ws'.line? i) := by
  have hawaits : Build.Awaits False ws f file :=
    ⟨h.starts (fun _ _ _ => False.elim) (fun _ _ hc => hc) hloaded hhome, hfile, hlight, hnew⟩
  have hs := hawaits.sound
  have hf := hawaits.isFile
  -- the first run
  obtain ⟨nested, hnested, hreach, output, linked, file', _, lines, -, hprepare, hfile', hprinted, hstaged,
    hread⟩ := hawaits.exists_firstHeader hheader
  obtain ⟨hs', hprimed', hhome'⟩ := hawaits.toStarts.reach hreach
  have hl' := hprimed'.loaded trivial
  obtain ⟨-, hdecided, -⟩ := hawaits.files hprepare
  -- what is asked for on the way does not change what the file depends on
  have h₀ := hawaits.toStarts.reach (hawaits.reach_of_prepare hprepare)
  obtain ⟨_, hbetween, hafter, -⟩ := (Between.refl False linked fun _ => False).exists_of_staged
    (asks h₀ nested) h₀ (hawaits.undecided_le hprepare (le_of_eq hnested)) hdecided (fun _ => False.elim)
    hstaged
  obtain ⟨-, start, -, -, -, -, hbare, -, _, hfile'', hstart, ⟨paths, hpaths, hbegun, hreads⟩, includeFile, ended,
    d, hbody, hended⟩ := hstaged
  rw [hfile'] at hfile''
  cases hfile''
  have hl₂ := hl'.of_bare hbare.symm
  have hhome₂ := hhome'.of_bare hbare.symm
  have hf' : ws'.isFile f = true := by rwa [hreach.extension.isFile (lt_size_of_isFile hf)]
  have hf₂ : start.isFile f = true := (isFile_of_bare hbare f).symm.trans hf'
  have hfinished : Build.Finished f start ws' := by
    have hfinished := finished_of_addBody hstart hl₂ hhome₂ hf₂ hpaths hbegun hbody
    rw [hended]
    exact ⟨hfinished.bare, hfinished.listed, hfinished.inked⟩
  -- clearing
  obtain ⟨cleared, hclear, hcleared⟩ := wiped_of_clear hs' (lt_size_of_isFile hf')
  have hiff := emptied_iff hfinished hstart hs' hcleared
  have hinside : ∀ z, start.fileOf? z = ws'.fileOf? z := fun z => (fileOf?_of_bare hbare z).symm
  obtain ⟨written, hwritten⟩ : ∃ file, (ws'.component f).file? = some file := Option.isSome_iff_exists.mp hf'
  have hrestarted := file?_of_wiped hcleared hwritten
  simp only [hinside] at hiff
  refine ⟨output, linked, cleared, hprepare, by rw [hprinted.text]; exact hread, hclear, ?_, ?_, hiff, ?_⟩
  · rw [Workspace.nextLine, hrestarted]
    rfl
  · rw [Workspace.included, hrestarted]
    rfl
  intro htogether hlibraries
  -- the second run up to the body
  have hbare' : cleared.bare = start.bare := hcleared.bare.trans hbare
  have hempty : ∀ z, cleared.fileOf? z = some f → cleared.text z = "" ∧ (cleared.component z).written = false := by
    intro z hz
    rw [fileOf?_of_bare hcleared.bare] at hz
    exact hiff.mpr htogether z hz
  have hsame : written.settled = true ∧ written.dependencies = file'.dependencies := by
    have hties := (ties?_of_bare hafter f).trans (hbetween.ties f hdecided)
    rw [Workspace.ties?, Workspace.ties?, hwritten, hfile', Option.map_some, Option.map_some, Option.some.injEq,
      Prod.mk.injEq, hawaits.settled hprepare hfile'] at hties
    exact hties
  have hlibraries : written.libraries = file'.libraries := by
    rw [Workspace.libraries?, Workspace.libraries?, hwritten, hfile', Option.map_some, Option.map_some,
      Option.some.injEq] at hlibraries
    exact hlibraries
  have hpaths' : written.dependencies.mapM cleared.headerPath? = some paths := by
    rw [hsame.2, headerPath?_of_bare hbare']
    exact hpaths
  obtain ⟨front, hfront, hbegun', hrender⟩ := render_of_addBody (hcleared.reach.sound hs')
    (hl₂.of_bare hbare') (hhome₂.of_bare hbare') hrestarted hsame.1
    (begun_of_emptied (hcleared.reach.sound hs') hrestarted rfl rfl hempty) hpaths'
    (hreads.of_bare hbare')
  -- the body, next to that of the first run
  let E : Retake := ⟨start, front, f, hstart, hl₂, hhome₂⟩
  have hstarts : E.Echo start front := by
    dsimp only at hbegun'
    rw [hlibraries] at hbegun'
    exact Retake.echo_of_begun (hfront.bare.trans hbare') hf₂ hbegun hbegun'
  obtain ⟨again, hagain, hecho, -⟩ := Retake.repeats_addBody (W := fun _ => False) hf₂ start front hstarts
    (fun _ => False.elim) () ended hbody
  have htext : again.text f = ws'.text f := by
    rw [hecho.text (hstart.fileOf?_self hf₂), hended]
    rfl
  refine ⟨again, ?_, fun i => ?_⟩
  · rw [hrender again hagain (hecho.bare'.trans hbare'.symm), htext]
  · -- a line that the body does not stamp is the one the first run left, as clearing keeps the forest
    rcases hecho.line? i with hline | ⟨-, hline⟩
    · rw [hline, hended]
      rfl
    · rw [hline, hfront.line?, Workspace.line?, hcleared.forest, Workspace.line?]

/-- Two sources that include each other, with a function inside a function and a native one. -/
theorem History.rewritten_as_before_mutual :
    let f := "function x\n function y\n  call __c_io_p\n call g.z\n"
    let disk : Disk := ⟨[(["f.light"], .file (.text f)),
      (["g.light"], .file (.text "function z\n call f.x\n"))], ⟨"/"⟩⟩
    let ws := Call.play [.registerProject "p" ⟨"/"⟩ ⟨"/o"⟩ .plain, .load 0, .load 1, .load 2]
      (Workspace.new {} disk [.light, .cpp])
    let ws' := (Build.header 1).after ws
    History DrivenCall ws ∧ ws.Loaded ∧ ws.ForwardsHome ∧ ws'.WrittenTogether 1 ∧
      ws'.text 1 = "#include <io>\n#include \"/o/g.hpp\"\nvoid y() \x7b\n    p();\n\x7d\n" ++
        "void x() \x7b\n    z();\n\x7d\n" ∧
      ∃ cleared again, Build.clear 1 ws' = .ok () cleared ∧ cleared.text 3 = "" ∧
        Build.render 1 cleared = .ok (ws'.text 1) again ∧ ∀ i, again.line? i = ws'.line? i := by
  intro f disk ws ws'
  have hhistory : History DrivenCall ws := .play (by decide +kernel)
  set prepared := (Build.prepare 1 ⟨"/f.light"⟩).after ws with hprepared
  obtain ⟨hloaded, hhome, hok, ⟨file, hfile, hlight, hnew, hpath⟩, htogether, hlibraries, hinside, htext⟩ :
      ws.Loaded ∧ ws.ForwardsHome ∧ (Build.header 1).succeeds ws = true ∧
      (∃ file ∈ (ws.component 1).file?, file.language? = some .light ∧ file.output? = none ∧
        file.path = ⟨"/f.light"⟩) ∧
      ws'.WrittenTogether 1 ∧ ws'.libraries? 1 = prepared.libraries? 1 ∧ ws'.fileOf? 3 = some 1 ∧
      ws'.text 1 = "#include <io>\n#include \"/o/g.hpp\"\nvoid y() \x7b\n    p();\n\x7d\n" ++
        "void x() \x7b\n    z();\n\x7d\n" := by decide +kernel
  obtain ⟨path, hheader⟩ : ∃ path, Build.header 1 ws = .ok path ws' := ok_of_succeeds hok
  clear_value prepared ws' ws
  obtain ⟨output, linked, cleared, hprepare, -, hclear, -, -, hiff, hrewrite⟩ :=
    hhistory.rewritten_as_before hloaded hhome hfile hlight hnew hheader
  have hlinked : prepared = linked := by
    rw [hprepared, Build.after, ← hpath, hprepare]
  obtain ⟨again, hrender, hlines⟩ := hrewrite htogether (hlinked ▸ hlibraries)
  exact ⟨hhistory, hloaded, hhome, htogether, htext, cleared, again, hclear,
    (hiff.mpr htogether 3 hinside).1, hrender, hlines⟩

/-- Both conditions are needed. A function can be declared, from inside another function, below a component
that is never written. It is lifted out and written, clearing the file does not reach it, and its text is
there twice when the file is written again. And a native function can be called by an operation that was
made after the names in the file were resolved. Its library is found when the operation is written, and is
included the second time only. -/
theorem rewritten_otherwise :
    let f := "declare v : int\nnamespace v.c\nfunction m\n function v.c.d\n"
    let disk : Disk := ⟨[(["f.light"], .file (.text f)), (["g.light"], .file (.text "function m\n"))], ⟨"/"⟩⟩
    let ws := Call.play [.registerProject "p" ⟨"/"⟩ ⟨"/o"⟩ .plain, .load 0, .load 1, .load 2, .settle 2,
      .plant { op := "call", name := "__c_io_p" },
      .addComponent 7 "call#0" (.operation { action := .call "__c_io_p" }) (some 6)]
      (Workspace.new {} disk [.light, .cpp])
    let ws' := (Build.header 2).after ((Build.header 1).after ws)
    let cleared := (Build.clear 2).after ((Build.clear 1).after ws')
    History DrivenCall ws ∧ ws.Loaded ∧ ws.ForwardsHome ∧ (Build.header 1).succeeds ws = true ∧
      ¬ws'.WrittenTogether 1 ∧
      ws'.text 1 = "void d() \x7b\n\x7d\nint v;\nvoid m() \x7b\n\x7d\n" ∧
      (Build.render 1).run' cleared =
        some "void d() \x7b\n\x7d\nvoid d() \x7b\n\x7d\nint v;\nvoid m() \x7b\n\x7d\n" ∧
      (Build.header 2).succeeds ws = true ∧ ws'.WrittenTogether 2 ∧
      ws'.text 2 = "void m() \x7b\n    p();\n\x7d\n" ∧
      (Build.render 2).run' cleared = some "#include <io>\nvoid m() \x7b\n    p();\n\x7d\n" := by
  intro f disk ws ws' cleared
  exact ⟨.play (by decide +kernel), by decide +kernel⟩

end LightHeaders
