import LightHeaders.Proofs.Histories
import LightHeaders.Proofs.Includes

set_option autoImplicit false

/-! # The text of a header

The first time that the header of a source is asked for, what is written is what the printer prints:
the lines of its includes, then what is lifted out of the file, then what stands in it. Nothing is lost
and nothing is written twice, although other headers can be written in the middle of this one
(`History.header_text`).

That needs text to have been forwarded to files only, all along. Text that was forwarded to another
component waits there and turns up in a later header (`header_text_forwarded_elsewhere`).
-/

namespace LightHeaders

open Workspace

/-! ## The lines of a file -/

/-- On the page of a file stand the lines of its includes, with the paths of the files it depends on,
and the lines of its body. -/
structure Workspace.Printed (ws : Workspace) (f : ComponentId) (file : SourceFile)
    (paths : List String) (lines : List HeaderLine) : Prop where
  headers : file.dependencies.mapM ws.headerPath? = some paths
  printed : ws.headerLines f file.libraries paths.eraseDups = some lines
  text : ws.text f = HeaderLine.joined lines
  nextLine : ws.nextLine f = 1 + lines.length
  stamped : ws.Apart → ws.Stamped 1 lines

variable {ws : Workspace} {f : ComponentId} {file : SourceFile}

theorem Workspace.Printed.setDisk {paths : List String} {lines : List HeaderLine}
    (h : ws.Printed f file paths lines) (d : Disk) :
    ({ ws with disk := d } : Workspace).Printed f file paths lines := by
  have hb : ({ ws with disk := d } : Workspace).bare = ws.bare := rfl
  refine ⟨?_, ?_, h.text, h.nextLine, h.stamped⟩
  · rw [headerPath?_of_bare hb]
    exact h.headers
  · rw [headerLines, bodyLines_of_bare hb]
    exact h.printed

theorem Workspace.Stamped.after_plain {n : Nat} {head body : List HeaderLine}
    (h : ws.Stamped (n + head.length) body) (hplain : ∀ l ∈ head, l.owner? = none) :
    ws.Stamped n (head ++ body) := by
  intro k l x i hl hx hi
  by_cases hk : k < head.length
  · rw [List.getElem?_append_left hk] at hl
    rw [hplain l (List.mem_of_getElem? hl)] at hx
    cases hx
  · rw [List.getElem?_append_right (Nat.le_of_not_lt hk)] at hl
    rw [h (k - head.length) l x i hl hx hi, Nat.add_assoc, Nat.add_sub_cancel' (Nat.le_of_not_lt hk)]

namespace Build

section FileText

variable {F : Prop} {D : ComponentId → Prop} {ws : Workspace} {f : ComponentId}

/-- Adds the body of a file to it: what is lifted, then what stands in it. -/
def addBody (includeFile : ComponentId → ComponentId → Build Unit) (f : ComponentId) : Build Unit := do
  ((← get).lifted f).forM fun function => discard <| renderInside includeFile function
  addChildren (renderInside includeFile) f true

variable {dependencies : List ComponentId} {nested : Nat} {file : SourceFile} {linked ws' : Workspace}

/-- **The body of a file follows its includes.** -/
theorem runs_body (hhome : ws.ForwardsHome) (hl : ws.Loaded) (hf : ws.isFile f = true) {paths : List String}
    (hpaths : file.dependencies.mapM ws.headerPath? = some paths)
    (h : ws.Begun f (file.libraries.map libraryLine ++
      paths.eraseDups.map includeLine) paths.eraseDups)
    {includeFile : ComponentId → ComponentId → Build Unit} :
    Runs (Prints (fun z => z = f ∨ ws.Rendered f z) (ws.Rendered f) f) (addBody includeFile f) ws
      fun _ ws' => ∃ lines, ws'.Printed f file paths lines := by
  refine .of_sound fun hs => ?_
  refine ((addsAs_body hs hl hhome hf).runs ws rfl fun z hz => ?_).weaken ?_
  · obtain ⟨hne, hz⟩ := inside_of_rendered hs hhome hf hz
    exact h.empty z hne hz
  rintro _ ws' _ hreach ⟨body, hbody, htext, hcounted⟩
  have hb := hreach.bare_eq hs
  refine ⟨file.libraries.map libraryLine ++ paths.eraseDups.map includeLine ++ body,
    ?_, ?_, ?_, ?_, fun hapart => ?_⟩
  · rw [headerPath?_of_bare hb]
    exact hpaths
  · rw [headerLines, bodyLines_of_bare hb, hbody]
    rfl
  · rw [htext, h.text, HeaderLine.joined_append _ body]
  · rw [hcounted.next, h.nextLine, Nat.add_assoc, ← List.length_append]
  · refine Workspace.Stamped.after_plain ?_ fun l hl => ?_
    · rw [← h.nextLine]
      exact hcounted.stamped (hapart.of_bare hb.symm)
    · rcases List.mem_append.mp hl with hl | hl
      · obtain ⟨library, -, rfl⟩ := List.mem_map.mp hl
        rfl
      · obtain ⟨path, -, rfl⟩ := List.mem_map.mp hl
        rfl

/-- Between `ws` and `ws'` the body of `f` was written behind the lines of its includes, and after that
nothing but the disk was changed. -/
def Ended (f : ComponentId) (file : SourceFile) (ws ws' : Workspace) : Prop :=
  ws.Sound ∧
  (∃ paths, file.dependencies.mapM ws.headerPath? = some paths ∧
    ws.Begun f (file.libraries.map libraryLine ++ paths.eraseDups.map includeLine)
      paths.eraseDups ∧ ReadsHeaders paths ws) ∧
  ∃ includeFile ended d, addBody includeFile f ws = .ok () ended ∧ ws' = { ended with disk := d }

/-- Between `linked` and `ws'` the headers of some files were asked for, to be included in `f`. Before and
after that only pages changed, and no other page than that of `f`; the body of `f` came last. -/
def Staged (F : Prop) (nested : Nat) (f : ComponentId) (dependencies : List ComponentId)
    (linked ws' : Workspace) : Prop :=
  ∃ ws₁ ws₂, Reach (Emits F True True (· ≠ f)) linked ws₁ ∧ ws₁.bare = linked.bare ∧
    (dependencies.forM fun dep => discard <| includeWith (headerWithin nested) f dep) ws₁ = .ok () ws₂ ∧
    ws₁.journal <+: ws₂.journal ∧ ws'.bare = ws₂.bare ∧
    (∀ g, g ≠ f → ws₂.isFile g = true → ws'.text g = ws₂.text g) ∧
    ∃ file, (linked.component f).file? = some file ∧ Ended f file ws₂ ws'

theorem Staged.journal (h : Staged F nested f dependencies linked ws') : linked.journal <+: ws'.journal := by
  obtain ⟨ws₁, ws₂, hreach, -, -, hjournal, hbare, -⟩ := h
  have hsame : ws'.bare.journal = ws₂.bare.journal := congrArg Workspace.journal hbare
  show linked.journal <+: ws'.bare.journal
  rw [hsame]
  exact hreach.journal.trans hjournal

theorem Ended.setDisk (h : Ended f file ws ws') (d : Disk) :
    Ended f file ws { ws' with disk := d } := by
  obtain ⟨hs, hbegun, includeFile, ended, _, hbody, rfl⟩ := h
  exact ⟨hs, hbegun, includeFile, ended, d, hbody, rfl⟩

theorem Staged.setDisk (h : Staged F nested f dependencies linked ws') (d : Disk) :
    Staged F nested f dependencies linked { ws' with disk := d } := by
  obtain ⟨ws₁, ws₂, hreach, hbare, hrun, hjournal, hafter, htext, file, hfile, hended⟩ := h
  exact ⟨ws₁, ws₂, hreach, hbare, hrun, hjournal, hafter, htext, file, hfile, hended.setDisk d⟩

theorem bare_libraries (hf : ws.isFile f = true) (libraries : List String) :
    Runs (Prints (fun z => z = f) (fun _ => False) f)
      (libraries.forM fun library => writePlainLine f ("#include <" ++ library ++ ">")) ws fun _ ws' =>
        ws'.bare = ws.bare := by
  refine .of_sound fun hs => (Makes.forM fun library _ ws' hs' hreach => ?_).weaken
    fun _ ws' _ hreach _ => hreach.bare_eq hs
  have hf' : ws'.isFile f = true := by
    rwa [hreach.extension.isFile (lt_size_of_isFile hf)]
  exact (runs_endText (S := fun z => z = f) rfl (hs'.fileOf?_self hf') false (by rintro ⟨⟩) _).makes

/-- **The text of a file**, from a page with nothing on it: names are resolved, then the includes and
the body are written. -/
theorem runs_addFileText (hf : Ongoing F D f ws) (h : ws.Begun f [] []) (nested : Nat) :
    let includeFile := fun file id => discard <| includeWith (headerWithin nested) file id
    Runs (fun _ _ => True) (addFileText includeFile (renderInside includeFile) f) ws fun _ ws' =>
      ∃ linked file paths lines, settle f ws = .ok () linked ∧
        (linked.component f).file? = some file ∧ ws'.Printed f file paths lines ∧
        Staged F nested f file.dependencies linked ws' ∧ (ws'.component f).forward? = none := by
  intro includeFile
  have hs := hf.sound
  refine .bind (makes_settle (G := fun _ => True) hf.primed.toReady (lt_size_of_isFile hf.isFile)
    trivial).given.told ?_
  rintro _ linked hs₁ _ ⟨hreach₁, hlinked, _⟩
  -- resolving names writes on no page
  have hsettles : Reach (Emits F True True fun _ => True) ws linked := hreach₁.mono fun _ _ => .settle
  have hbegun₁ : linked.Begun f [] [] :=
    begun_of_reach h hs hsettles hf.home hf.isFile trivial
  have hf₁ := hf.reach (hreach₁.mono fun _ _ => .settle)
  obtain ⟨file, hfile⟩ : ∃ file, (linked.component f).file? = some file :=
    Option.isSome_iff_exists.mp hf₁.isFile
  refine .component fun _ => ?_
  rw [hfile]
  have hmine : ∀ {z}, D z → z ≠ f := by
    rintro _ hz rfl
    obtain ⟨file, hfile, -, hnot⟩ := hf.isOpen
    rw [hs.fileOf?_self hf.isFile] at hfile
    cases hfile
    exact hnot hz
  have hopen₁ : linked.Open (· ≠ f) f :=
    ⟨f, hs₁.fileOf?_self hf₁.isFile, hf₁.decided, fun hne => hne rfl⟩
  refine .bind ((runs_libraries (F := F) hbegun₁ hf₁.isFile hopen₁ _).both
    (bare_libraries hf₁.isFile _)).told ?_
  rintro _ ws₂ hs₂ _ ⟨hreach₂, hbegun₂, hbare₂⟩
  have hf₂ := hf₁.reach (hreach₂.mono (Emits.mono fun _ => hmine))
  have hnone : ws₂.Begun f (file.libraries.map libraryLine ++
      ([] : List String).eraseDups.map includeLine) ([] : List String).eraseDups := by
    simpa using hbegun₂
  refine .bind (runs_includes nested hf₂ [] hnone (fun hne => absurd rfl hne)
    file.dependencies).given.told ?_
  rintro _ ws₃ hs₃ _ ⟨hreach₃, hrun₃, paths, hpaths, hbegun₃, hreads₃⟩
  have hf₃ := hf₂.reach hreach₃
  refine (runs_body hf₃.home (hf₃.primed.loaded trivial) hf₃.isFile hpaths hbegun₃).given.told.weaken ?_
  rintro _ ws' _ _ ⟨hreach₄, hrun₄, lines, hprinted⟩
  refine ⟨linked, file, paths, lines, hlinked, hfile, hprinted, ?_, ?_⟩
  · refine ⟨ws₂, ws₃, hreach₂, hbare₂, hrun₃, hreach₃.journal, hreach₄.bare_eq hs₃,
      fun g hne hg => hreach₄.text_eq hs₃ ?_, file, hfile, hs₃, ⟨paths, hpaths, hbegun₃, hreads₃⟩,
      includeFile, ws', ws'.disk, hrun₄, rfl⟩
    -- what is rendered into the file is no file
    rintro (rfl | hrendered)
    · exact hne rfl
    · obtain ⟨-, hin⟩ := inside_of_rendered hs₃ hf₃.home hf₃.isFile hrendered
      rw [hs₃.fileOf?_self hg] at hin
      exact hne (Option.some.inj hin)
  · rw [forward?_of_bare (hreach₄.bare_eq hs₃)]
    exact hf₃.home.forward?_file hf₃.isFile

end FileText

/-! ## Before the text -/

/-- What comes before the text of a header: its path is decided, the file is cleared, and the names in
it are resolved. -/
def prepare (f : ComponentId) (source : Path) : Build Path := do
  let output ← chooseOutput f source
  beginHeader f output
  clear f
  update f fun c => { c with written := true }
  settle f
  return output

section Header

variable {F : Prop} {ws : Workspace} {f : ComponentId}

theorem makes_prepare {L H : Prop} (hp : ws.Primed F L H) (hundecided : ¬ws.Decided f) {source : Path}
    (hlight : ws.IsLight f source) :
    Makes (Emits F L H ws.Decided) (prepare f source) ws := by
  refine .of_sound fun hs => ?_
  refine runs_chosen hp hundecided hundecided hlight fun output ws₁ hreach₁ hs₁ _ hopen hwritten => ?_
  refine .bind (makes_clear (fun _ => hopen) hwritten) fun _ ws₂ _ hreach₂ _ => ?_
  have hmark : Makes (Emits F L H ws.Decided) (update f fun c => { c with written := true }) ws₂ :=
    Makes.edit .written trivial (.page .written fun _ => hreach₂.open_of hs₁ hopen) rfl
  refine .bind hmark fun _ ws₃ _ hreach₃ _ => ?_
  have hreach := (hreach₁.trans hreach₂).trans hreach₃
  exact .bind (makes_settle (hreach.primed hs hp).toReady
    (hreach.lt (lt_size_of_isFile hlight.isFile)) trivial).emits fun _ _ _ _ _ => .pure trivial

theorem clear_eq (hf : f < ws.size) (hwritten : (ws.component f).written = false) :
    clear f ws = .ok () ((Change.edit f (.file .restart)).apply ((Change.edit f .cleared).apply ws)) := by
  obtain ⟨depth, hdepth⟩ : ∃ depth, ws.size - f = depth + 1 :=
    Nat.exists_eq_add_one.mpr (Nat.sub_pos_of_lt hf)
  show clearWithin (ws.size - f) f ws = _
  rw [hdepth]
  show (if (ws.component f).written then _ else pure () : Build Unit) _ = _
  rw [hwritten]
  rfl

/-- The file as it is before its text is written. -/
def blank (ws : Workspace) (f : ComponentId) : Workspace :=
  (Change.edit f .written).apply
    ((Change.edit f (.file .restart)).apply ((Change.edit f .cleared).apply ws))

theorem component_blank (hf : f < ws.size) (z : ComponentId) :
    (blank ws f).component z = if z = f then
      Edit.written.apply ((Edit.file .restart).apply (Edit.cleared.apply (ws.component f)))
      else ws.component z := by
  simp only [blank, Change.apply, component_modify_eq, size_modify]
  by_cases hz : z = f
  · subst hz
    simp [hf]
  · simp [hz]

theorem begun_blank (hs : ws.Sound) (hf : ws.isFile f = true)
    (hempty : ∀ z, z ≠ f → ws.fileOf? z = some f → ws.text z = "" ∧ (ws.component z).written = false) :
    (blank ws f).Begun f [] [] := by
  have hlt := lt_size_of_isFile hf
  obtain ⟨file, hfile⟩ : ∃ file, (ws.component f).kind.file? = some file :=
    Option.isSome_iff_exists.mp hf
  have hpage : (blank ws f).text f = "" ∧
      ((blank ws f).component f).file? = some (FileEdit.restart.apply file) := by
    rw [text, component_blank hlt, if_pos rfl]
    exact ⟨rfl, by simp [Component.file?, Edit.apply, hfile]⟩
  have hreach : Reach (fun _ _ => True) ws (blank ws f) :=
    ((Reach.single (.edit f .cleared) trivial trivial).trans
      (.single (.edit f (.file .restart)) trivial trivial)).trans
      (.single (.edit f .written) trivial trivial)
  have hinside : ∀ z, (blank ws f).fileOf? z = some f → ws.fileOf? z = some f := by
    intro z hz
    have hz' := (hreach.sound hs).lt_size_of_fileOf? hz
    have hsize : (blank ws f).size = ws.size := by simp [blank, Change.apply]
    rw [hsize] at hz'
    rwa [hreach.fileOf?_eq hs hz'] at hz
  refine ⟨hpage.1, ?_, ?_, fun z hne hz => ?_, fun z hne hz => ?_⟩
  · rw [nextLine, hpage.2]
    rfl
  · rw [included, hpage.2]
    rfl
  · rw [text, component_blank hlt, if_neg hne]
    exact (hempty z hne (hinside z hz)).1
  · rw [component_blank hlt, if_neg hne]
    exact (hempty z hne (hinside z hz)).2

variable {D : ComponentId → Prop}

theorem runs_renderFile (hf : Ongoing F D f ws)
    (hblank : ((Change.edit f .written).apply ws).Begun f [] []) (nested : Nat) :
    Runs (fun _ _ => True)
      (renderWith (fun file id => discard <| includeWith (headerWithin nested) file id) f) ws
      fun text ws' => ∃ linked file paths lines,
        settle f ((Change.edit f .written).apply ws) = .ok () linked ∧
        (linked.component f).file? = some file ∧ ws'.Printed f file paths lines ∧
        Staged F nested f file.dependencies linked ws' ∧ text = HeaderLine.joined lines := by
  obtain ⟨file, hkind⟩ : ∃ file, (ws.component f).kind = .file file := by
    have hisFile := hf.isFile
    rw [isFile, kind] at hisFile
    cases hk : (ws.component f).kind with
    | file file => exact ⟨file, rfl⟩
    | _ =>
      rw [hk] at hisFile
      cases hisFile
  refine .component fun _ => ?_
  have hmark := (Makes.edit (P := Emits F True True D) (g := fun c => { c with written := true })
    .written trivial (.page .written fun _ => hf.isOpen) rfl).given
  refine .bind hmark.told ?_
  rintro _ ws₁ - - ⟨hreach, heq, _⟩
  cases heq
  unfold addOwnText
  rw [hkind]
  refine .bind (runs_addFileText (hf.reach hreach) hblank nested) ?_
  rintro _ ws₂ _ _ ⟨linked, file, paths, lines, hlinked, hfile, hprinted, hstaged, hforward⟩
  refine .component fun _ => ?_
  rw [hforward]
  exact .pure ⟨linked, file, paths, lines, hlinked, hfile, hprinted, hstaged, hprinted.text⟩

/-- **The text of a header is written**, to the file on the disk as well. -/
theorem runs_writeHeader (hf : Ongoing F D f ws) (hwritten : (ws.component f).written = false)
    (hempty : ∀ z, z ≠ f → ws.fileOf? z = some f → ws.text z = "" ∧ (ws.component z).written = false)
    (nested : Nat) (output : Path) :
    Runs (fun _ _ => True)
      (writeHeader
        (renderWith fun file id => discard <| includeWith (headerWithin nested) file id) f output) ws
      fun _ ws' => ∃ linked file paths lines, settle f (blank ws f) = .ok () linked ∧
        (linked.component f).file? = some file ∧ ws'.Printed f file paths lines ∧
        Staged F nested f file.dependencies linked ws' ∧
        ws'.disk.readText output = .ok (HeaderLine.joined lines) := by
  have hlt := lt_size_of_isFile hf.isFile
  have hclear := (makes_clear (F := F) (L := True) (H := True) (fun _ => hf.isOpen)
    fun _ => hwritten).given
  refine .bind hclear.told ?_
  rintro _ ws₁ hs₁ _ ⟨hreach, heq, _⟩
  rw [clear_eq hlt hwritten] at heq
  cases heq
  refine .bind (runs_renderFile (hf.reach hreach) (begun_blank hf.sound hf.isFile hempty) nested) ?_
  rintro text ws₂ - - ⟨linked, file, paths, lines, hlinked, hfile, hprinted, hstaged, rfl⟩
  -- the text is stored in the same way with or without a directory to make
  have hstore : ∀ {ws₃ : Workspace}, ws₃.Printed f file paths lines →
      Staged F nested f file.dependencies linked ws₃ →
      Runs (fun _ _ => True) (change (·.writeText output (HeaderLine.joined lines)) (.unusable output))
        ws₃ fun _ ws' => ∃ linked file paths lines, settle f (blank ws f) = .ok () linked ∧
          (linked.component f).file? = some file ∧ ws'.Printed f file paths lines ∧
          Staged F nested f file.dependencies linked ws' ∧
          ws'.disk.readText output = .ok (HeaderLine.joined lines) := by
    intro ws₃ hprinted hstaged
    refine .bind Runs.ask ?_
    rintro d _ - - ⟨rfl, hd⟩
    exact .change (.disk d) rfl trivial trivial ⟨linked, file, paths, lines, hlinked, hfile,
      hprinted.setDisk d, hstaged.setDisk d, Disk.readText_of_writeText hd⟩
  cases output.parent? with
  | none => exact hstore hprinted hstaged
  | some dir =>
    have hmake : Runs (fun _ _ => True) (change (·.makeDirectories dir) (.unusable dir)) ws₂
        fun _ ws' => ws'.Printed f file paths lines ∧
          Staged F nested f file.dependencies linked ws' := by
      refine .bind Runs.ask ?_
      rintro d _ - - ⟨rfl, -⟩
      exact .change (.disk d) rfl trivial trivial ⟨hprinted.setDisk d, hstaged.setDisk d⟩
    exact .bind hmake fun _ _ _ _ h => hstore h.1 h.2

variable {file : SourceFile}

theorem undecided_pos (hfile : (ws.component f).file? = some file)
    (houtput : file.output? = none) : 0 < ws.undecided := by
  have hlt := lt_size_of_isFile (isFile_of_file? hfile)
  refine List.countP_pos_iff.mpr ⟨ws.component f, ?_, ?_⟩
  · rw [Workspace.component, Array.getD_eq_getD_getElem?, Array.getElem?_eq_getElem hlt]
    exact Array.getElem_mem_toList hlt
  · rw [hfile, Option.any_some, houtput]
    rfl

variable {ws' linked : Workspace} {output : Path} {path : String}

/-- The header of the Light source `f` was not asked for yet. -/
structure Awaits (F : Prop) (ws : Workspace) (f : ComponentId) (file : SourceFile) : Prop
    extends Starts F ws where
  source : (ws.component f).file? = some file
  light : file.language? = some .light
  new : file.output? = none

theorem Awaits.isFile (h : Awaits F ws f file) : ws.isFile f = true := isFile_of_file? h.source

theorem Awaits.undecided (h : Awaits F ws f file) : ¬ws.Decided f := not_decided h.source h.new

theorem Awaits.reach_of_prepare (h : Awaits F ws f file) (hrun : prepare f file.path ws = .ok output linked) :
    Reach (Emits F True True ws.Decided) ws linked :=
  ((makes_prepare h.primed h.undecided ⟨file, h.source, h.light, rfl⟩).of_ok h.sound hrun).1

/-- From `ws` to `ws'` the header of `f` was made. Its text, on the disk as well, is what the printer
prints. -/
def FirstHeader (F : Prop) (nested : Nat) (f : ComponentId) (file : SourceFile) (ws : Workspace)
    (path : String)
    (ws' : Workspace) : Prop :=
  ∃ output linked file' paths lines,
    path = (ws.spellingOf f).spell output ∧ prepare f file.path ws = .ok output linked ∧
    (linked.component f).file? = some file' ∧ ws'.Printed f file' paths lines ∧
    Staged F nested f file'.dependencies linked ws' ∧
    ws'.disk.readText output = .ok (HeaderLine.joined lines)

/-- **Asking for the header of a source for the first time** writes what the printer prints, wherever it
is asked for. -/
theorem runs_firstHeaderWithin (nested : Nat) (h : Awaits F ws f file) :
    Runs (fun _ _ => True) (headerWithin (nested + 1) f) ws (FirstHeader F nested f file ws) := by
  have hstarts := h.toStarts
  obtain ⟨⟨hs, hp, -⟩, hfile, hlight, houtput⟩ := h
  have hf := isFile_of_file? hfile
  have hundecided := not_decided hfile houtput
  refine .get fun _ => .component fun _ => ?_
  rw [hfile, Option.bind_some, houtput]
  refine .bind (runs_load_of_loaded (hp.loaded trivial) f) ?_
  rintro _ ws - - rfl
  refine .component fun _ => ?_
  rw [hfile]
  dsimp only
  rw [hlight]
  have hchoose := runs_chooseOutput (F := F) (L := True) (H := True) (D := ws.Decided) hundecided
    ⟨file, hfile, hlight, rfl⟩
  refine .bind hchoose.given.told ?_
  rintro output _ hs₁ _ ⟨hreach₁, hchosen, ⟨taken, rfl⟩, hundecided₁, hsuits⟩
  have hdecide := (runs_beginHeader (F := F) (L := True) (H := True) (D := ws.Decided) hundecided₁
    hsuits).given
  refine .bind hdecide.told ?_
  rintro _ ws₂ hs₂ _ ⟨hreach₂, hdecides, hout, hpage⟩
  have hreach := hreach₁.trans hreach₂
  -- nothing of the file was written before its path was decided
  have hclean : ∀ z, ws.fileOf? z = some f → (ws.component z).written = false ∧
      (z ≠ f → (ws.component z).buffer = {}) := fun z =>
    (hp.tidy trivial).clean.of_undecided hs hundecided
  have hunwritten : ∀ z, ws.fileOf? z = some f → (ws₂.component z).written = false := by
    intro z hz
    have hwritten : (ws₂.component z).written = (ws.component z).written := congrArg Prod.fst (hpage z)
    exact hwritten.trans (hclean z hz).1
  have hempty : ∀ z, z ≠ f → ws₂.fileOf? z = some f → ws₂.text z = "" ∧ (ws₂.component z).written = false := by
    intro z hne hz
    have hlt := hs₂.lt_size_of_fileOf? hz
    rw [hreach.size_eq hs trivial] at hlt
    rw [hreach.fileOf?_eq hs hlt] at hz
    have hbuffer : (ws₂.component z).buffer = (ws.component z).buffer :=
      congrArg (fun page => page.2.1) (hpage z)
    refine ⟨?_, hunwritten z hz⟩
    rw [text, hbuffer, (hclean z hz).2 hne]
    rfl
  have hwritten : (ws₂.component f).written = false := hunwritten f (hs.fileOf?_self hf)
  have hdecided := decided_of_output? hout
  have hongoing : Ongoing F ws.Decided f ws₂ := ⟨hstarts.reach hreach,
    ⟨f, hs₂.fileOf?_self hdecided.isFile, hdecided, hundecided⟩, hdecided,
    fun other hother => hreach.decided hs hother⟩
  refine .bind (runs_writeHeader hongoing hwritten hempty nested output) ?_
  rintro _ ws₃ - - ⟨linked, file', paths, lines, hlinked, hfile', hprinted, hstaged, hread⟩
  refine .pure ⟨output, linked, file', paths, lines, rfl, ?_, hfile', hprinted, hstaged, hread⟩
  have hlt := lt_size_of_isFile hdecided.isFile
  rw [prepare, bind_of_ok hchosen, bind_of_ok hdecides, bind_of_ok (clear_eq hlt hwritten)]
  exact bind_of_ok hlinked

theorem Awaits.firstHeader {nested : Nat} (h : Awaits F ws f file)
    (hrun : headerWithin (nested + 1) f ws = .ok path ws') :
    Reach (Emits F True True ws.Decided) ws ws' ∧ FirstHeader F nested f file ws path ws' :=
  ⟨((runs_headerWithin (nested + 1) h.primed (lt_size_of_isFile h.isFile)).of_ok h.sound hrun).1,
    ((runs_firstHeaderWithin nested h).of_ok h.sound hrun).2⟩

theorem Awaits.exists_firstHeader (h : Awaits F ws f file) (hrun : header f ws = .ok path ws') :
    ∃ nested, ws.undecided = nested + 1 ∧ Reach (Emits F True True ws.Decided) ws ws' ∧
      FirstHeader F nested f file ws path ws' := by
  obtain ⟨nested, hnested⟩ := Nat.exists_eq_add_one.mpr (undecided_pos h.source h.new)
  have hwithin : headerWithin ws.undecided f ws = .ok path ws' := hrun
  rw [hnested] at hwithin
  exact ⟨nested, hnested, h.firstHeader hwithin⟩

end Header

end Build

/-! ## Headers in histories -/

/-- Where all writing was asked for by way of headers, all files are loaded and text is forwarded to the
file around a component only, headers can be asked for. -/
theorem History.starts {A : Workspace → Call → Prop} {F : Prop} (h : History A ws)
    (hF : ∀ ws c, A ws c → F → c.Sourced) (hA : ∀ ws c, A ws c → c.Driven ws) (hloaded : ws.Loaded)
    (hhome : ws.ForwardsHome) : Build.Starts F ws := by
  obtain ⟨hs, hp⟩ := h.known hF (H := True) fun ws c hc _ => hA ws c hc
  exact ⟨hs, ⟨⟨hp.plain, fun _ => hloaded⟩, hp.tidy⟩, hhome⟩

/-- **The text of a header is what the printer prints.** In a history in which all writing was asked for
by way of headers and text was forwarded to files only, with all files loaded and text forwarded to the
file around a component only, let the header of a source be asked for the first time. If that succeeds,
its text, on the disk as well, is: a line for each native library that the file uses, in their order; a
line for each path of a header that it depends on, at its first occurrence; the lines of each forwarded
component that a walk down from the file visits, each once and none before one inside it; and the lines
of the children that stand in the file, in their order. -/
theorem History.header_text {ws ws' : Workspace} {f : ComponentId} {file : SourceFile} {path : String}
    (h : History DrivenCall ws) (hloaded : ws.Loaded) (hhome : ws.ForwardsHome)
    (hfile : (ws.component f).file? = some file) (hlight : file.language? = some .light)
    (hnew : file.output? = none) (hheader : Build.header f ws = .ok path ws') :
    ∃ output linked file' paths lifted own,
      path = (ws.spellingOf f).spell output ∧
      -- what the file uses and depends on once the names in it are resolved
      Build.prepare f file.path ws = .ok output linked ∧ (linked.component f).file? = some file' ∧
      file'.dependencies.mapM ws'.headerPath? = some paths ∧
      Workspace.printAll (ws'.print 0) (ws'.lifted f) = some lifted ∧
      Workspace.printAll (ws'.print 0) (ws'.inlineChildren f true) = some own ∧
      (∀ x, x ∈ ws'.lifted f ↔
        ws'.Visits f true x ∧ (ws'.component x).forward?.isSome = true) ∧
      (ws'.lifted f).Nodup ∧ (ws'.lifted f).Pairwise (fun a b => a ∉ ws'.enclosing b) ∧
      -- the printer goes down the tree, one level deeper each time
      (∀ level x, x < ws'.size →
        ws'.print level x = ws'.printOwn (ws'.print (level + 1)) level x (ws'.kind x)) ∧
      ws'.text f = HeaderLine.joined (file'.libraries.map Workspace.libraryLine ++
        paths.eraseDups.map Workspace.includeLine ++ (lifted ++ own)) ∧
      ws'.disk.readText output = .ok (ws'.text f) := by
  have hawaits : Build.Awaits False ws f file :=
    ⟨h.starts (fun _ _ _ => False.elim) (fun _ _ hc => hc) hloaded hhome, hfile, hlight, hnew⟩
  obtain ⟨-, -, hreach, output, linked, file', paths, lines, hpath, hprepared, hfile', hprinted, -, hread⟩ :=
    hawaits.exists_firstHeader hheader
  have hs' := hreach.sound hawaits.sound
  obtain ⟨body, hbody, hlines⟩ := Option.map_eq_some_iff.mp hprinted.printed
  obtain ⟨lifted, hlifted, hbody⟩ := Option.bind_eq_some_iff.mp hbody
  obtain ⟨own, hown, hbody⟩ := Option.bind_eq_some_iff.mp hbody
  cases hbody
  subst hlines
  refine ⟨output, linked, file', paths, lifted, own, hpath, hprepared, hfile', hprinted.headers, hlifted,
    hown, fun x => hs'.mem_lifted_iff, hs'.nodup_lifted f, hs'.pairwise_lifted f, fun level x hx =>
    hs'.print_eq hx level, hprinted.text, ?_⟩
  rw [hprinted.text]
  exact hread

/-- Two sources that include each other, with a function inside a function and a native one. -/
theorem History.header_text_mutual :
    let f := "function x\n function y\n  call __c_io_p\n call g.z\n"
    let disk : Disk := ⟨[(["f.light"], .file (.text f)),
      (["g.light"], .file (.text "function z\n call f.x\n"))], ⟨"/"⟩⟩
    let ws := Call.play [.registerProject "p" ⟨"/"⟩ ⟨"/o"⟩ .plain, .load 0, .load 1, .load 2]
      (Workspace.new {} disk [.light, .cpp])
    let ws' := (Build.header 1).after ws
    History DrivenCall ws ∧ ws.Loaded ∧ ws.ForwardsHome ∧
      (∃ output, ws'.disk.readText output = .ok (ws'.text 1)) ∧
      ws'.text 1 = "#include <io>\n#include \"/o/g.hpp\"\nvoid y() \x7b\n    p();\n\x7d\n" ++
        "void x() \x7b\n    z();\n\x7d\n" := by
  intro f disk ws ws'
  have hhistory : History DrivenCall ws := .play (by decide +kernel)
  obtain ⟨hloaded, hhome, hok, ⟨file, hfile, hlight, hnew⟩, htext⟩ : ws.Loaded ∧ ws.ForwardsHome ∧
      (Build.header 1).succeeds ws = true ∧
      (∃ file ∈ (ws.component 1).file?, file.language? = some .light ∧ file.output? = none) ∧
      ws'.text 1 = "#include <io>\n#include \"/o/g.hpp\"\nvoid y() \x7b\n    p();\n\x7d\n" ++
        "void x() \x7b\n    z();\n\x7d\n" := by decide +kernel
  obtain ⟨path, hheader⟩ : ∃ path, Build.header 1 ws = .ok path ws' := Build.ok_of_succeeds hok
  clear_value ws' ws
  obtain ⟨output, -, -, -, -, -, -, -, -, -, -, -, -, -, -, -, -, hread⟩ :=
    hhistory.header_text hloaded hhome hfile hlight hnew hheader
  exact ⟨hhistory, hloaded, hhome, ⟨output, hread⟩, htext⟩

/-- Text that was forwarded to another component before it was forwarded to its file: the header of the
other file is written later and holds it as well, although all writing was asked for by way of
headers. -/
theorem header_text_forwarded_elsewhere :
    let disk : Disk := ⟨[(["f.light"], .file (.text "function x\n")),
      (["g.light"], .file (.text "function y\n"))], ⟨"/"⟩⟩
    let ws := Call.play [.registerProject "p" ⟨"/"⟩ ⟨"/o"⟩ .plain, .load 0, .load 1, .load 2,
      .forward 3 4, .header 1, .forward 3 1] (Workspace.new {} disk [.light, .cpp])
    let ws' := (Build.header 2).after ws
    History (fun ws c => c.Driven ws ∨ ∃ id target, c = .forward id target) ws ∧ ws.Loaded ∧
      ws.ForwardsHome ∧ ws.output? 2 = none ∧ ws'.output? 2 = some ⟨"/o/g.hpp"⟩ ∧
      (ws'.component 2).file?.map (fun file => (file.libraries, file.dependencies)) = some ([], []) ∧
      (ws'.headerLines 2 [] []).map HeaderLine.joined = some "void y() \x7b\n\x7d\n" ∧
      ws'.text 2 = "void x() \x7b\n\x7d\nvoid y() \x7b\n\x7d\n" := by
  intro disk ws ws'
  exact ⟨.play (by decide +kernel), by decide +kernel⟩

end LightHeaders
