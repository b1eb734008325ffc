import LightHeaders.Proofs.Bodies

set_option autoImplicit false

/-! # The head of a header

The text of a file starts with its includes: a line for each native library, then a line for each
header that the files it depends on are written to, at the first of them that is written there. To
ask for those headers can mean to write them. That leaves alone what is on the page of the file
(`Begun`), so the lines follow one another as if nothing were written in between
(`runs_includes`).
-/

namespace LightHeaders

open Workspace

/-! ## The path of a header -/

/-- How the path of the header of the file around a component is spelled, once it is decided. -/
def Workspace.headerPath? (ws : Workspace) (id : ComponentId) : Option String :=
  (ws.fileOf? id).bind fun file => (ws.output? file).map (ws.spellingOf file).spell

variable {ws ws' : Workspace}

theorem Workspace.headerPath?_of_bare (hb : ws'.bare = ws.bare) : ws'.headerPath? = ws.headerPath? := by
  funext id
  simp only [headerPath?, fileOf?_of_bare hb, output?_of_bare hb, spellingOf_of_bare hb]

section Emits

variable {F L H : Prop} {D : ComponentId → Prop} {ws ws' : Workspace} {c : Change}

theorem Emits.size_eq (h : Emits F L H D ws c) (hL : L) : (c.apply ws).size = ws.size := by
  cases h with
  | settle mem =>
    cases mem with
    | load _ unloaded => exact absurd hL unloaded
    | _ => simp [Change.apply, Workspace.size, Workspace.modify]
  | page | handOn | output => exact Workspace.size_modify ..
  | _ => rfl

theorem Reach.size_eq (h : Reach (Emits F L H D) ws ws') (hs : ws.Sound) (hL : L) :
    ws'.size = ws.size :=
  h.invariant (I := fun ws' => ws'.size = ws.size) hs rfl fun _ _ _ _ hc heq =>
    (hc.size_eq hL).trans heq

theorem Reach.headerPath?_eq (h : Reach (Emits F L H D) ws ws') (hs : ws.Sound) {id : ComponentId}
    {path : String} (hpath : ws.headerPath? id = some path) :
    ws'.headerPath? id = some path := by
  obtain ⟨file, hfile, hpath⟩ := Option.bind_eq_some_iff.mp hpath
  obtain ⟨output, houtput, rfl⟩ := Option.map_eq_some_iff.mp hpath
  have hlt := lt_size_of_isFile (isFile_of_fileOf? hfile)
  rw [headerPath?, h.fileOf?_eq hs (hs.lt_size_of_fileOf? hfile), hfile, Option.bind_some,
    h.output?_eq hs houtput, h.spellingOf_eq hs hlt]
  rfl

end Emits

theorem Reach.readers_eq {P : Change.Class} (h : Reach P ws ws') (hs : ws.Sound) :
    ws'.readers = ws.readers := by
  refine h.invariant (I := fun next => next.readers = ws.readers) hs rfl ?_
  rintro next c - - - hnext
  cases c <;> exact hnext

/-! ## The page of a file -/

/-- The page of the file `f` has the given lines on it and includes the given paths, and nothing in the file
was written or has text of its own. -/
structure Workspace.Begun (ws : Workspace) (f : ComponentId) (lines : List HeaderLine)
    (included : List String) : Prop where
  text : ws.text f = HeaderLine.joined lines
  nextLine : ws.nextLine f = 1 + lines.length
  included : ws.included f = included
  empty : ∀ z, z ≠ f → ws.fileOf? z = some f → ws.text z = ""
  fresh : ∀ z, z ≠ f → ws.fileOf? z = some f → (ws.component z).written = false

theorem Reach.written_eq {S T : ComponentId → Prop} {f : ComponentId} (h : Reach (Prints S T f) ws ws')
    (hs : ws.Sound) {id : ComponentId} (hid : ¬T id) :
    (ws'.component id).written = (ws.component id).written :=
  h.view_eq Component.written (fun _ _ => rfl) (fun _ _ _ => rfl) (fun hT => absurd hT hid) hs

namespace Build

/-- What is known of a workspace where headers start to be asked for. -/
structure Starts (F : Prop) (ws : Workspace) : Prop where
  sound : ws.Sound
  primed : ws.Primed F True True
  home : ws.ForwardsHome

/-- What is known while the header of `f` is written: its page is open, and its path is decided as well
as those of the files `D`, which keep their pages. -/
structure Ongoing (F : Prop) (D : ComponentId → Prop) (f : ComponentId) (ws : Workspace) : Prop
    extends Starts F ws where
  isOpen : ws.Open D f
  decided : ws.Decided f
  others : ∀ file, D file → ws.Decided file

section Begun

variable {F H : Prop} {D : ComponentId → Prop} {ws ws' : Workspace} {f : ComponentId}
  {lines : List HeaderLine} {included : List String}

theorem begun_of_page (h : ws.Begun f lines included) (hs : ws.Sound) (hf : ws.isFile f = true)
    (hfile : ∀ z, ws'.fileOf? z = some f → ws.fileOf? z = some f)
    (hpage : ∀ z, ws.fileOf? z = some f → (ws'.component z).page = (ws.component z).page) :
    ws'.Begun f lines included := by
  have hview : ∀ z, ws.fileOf? z = some f → ws'.text z = ws.text z ∧
      ((ws'.component z).file?.map fun file => (file.nextLine, file.included)) =
        (ws.component z).file?.map fun file => (file.nextLine, file.included) := by
    intro z hz
    have hz := hpage z hz
    rw [Component.page, Component.page, Prod.mk.injEq, Prod.mk.injEq] at hz
    exact ⟨by rw [text, hz.2.1, text], hz.2.2⟩
  have hwritten : ∀ z, ws.fileOf? z = some f → (ws'.component z).written = (ws.component z).written :=
    fun z hz => congrArg Prod.fst (hpage z hz)
  obtain ⟨htext, hlines⟩ := hview f (hs.fileOf?_self hf)
  have hfst := congrArg (fun o => (o.map Prod.fst).getD 0) hlines
  have hsnd := congrArg (fun o => (o.map Prod.snd).getD []) hlines
  simp only [Option.map_map, Function.comp_def] at hfst hsnd
  exact ⟨htext.trans h.text, hfst.trans h.nextLine, hsnd.trans h.included, fun z hne hz =>
    (hview z (hfile z hz)).1.trans (h.empty z hne (hfile z hz)), fun z hne hz =>
    (hwritten z (hfile z hz)).trans (h.fresh z hne (hfile z hz))⟩

theorem Starts.reach (h : Starts F ws) (hreach : Reach (Emits F True True D) ws ws') : Starts F ws' :=
  ⟨hreach.sound h.sound, hreach.primed h.sound h.primed, hreach.forwardsHome h.sound trivial h.home⟩

theorem Ongoing.reach (h : Ongoing F D f ws) (hreach : Reach (Emits F True True D) ws ws') :
    Ongoing F D f ws' :=
  ⟨h.toStarts.reach hreach, hreach.open_of h.sound h.isOpen, hreach.decided h.sound h.decided,
    fun file hfile => hreach.decided h.sound (h.others file hfile)⟩

theorem Ongoing.isFile (h : Ongoing F D f ws) : ws.isFile f = true := h.decided.isFile

/-- **What is on the page of a file among `D` stays**, where nothing is loaded and text is forwarded to
the file around it only. -/
theorem begun_of_reach (h : ws.Begun f lines included) (hs : ws.Sound)
    (hreach : Reach (Emits F True True D) ws ws') (hhome : ws.ForwardsHome) (hf : ws.isFile f = true)
    (hD : D f) : ws'.Begun f lines included := by
  refine begun_of_page h hs hf (fun z hz => ?_) fun z hz =>
    hreach.page_eq hs trivial trivial hhome hz hD
  have hlt := (hreach.sound hs).lt_size_of_fileOf? hz
  rw [hreach.size_eq hs trivial] at hlt
  rwa [hreach.fileOf?_eq hs hlt] at hz

theorem runs_plainLine (h : ws.Begun f lines included) (hf : ws.isFile f = true) (text : String) :
    Runs (Prints (fun z => z = f) (fun _ => False) f) (writePlainLine f text) ws fun _ ws' =>
      ws'.Begun f (lines ++ [{ text := text }]) included := by
  refine .of_sound fun hs => ?_
  have hline : Runs (Prints (fun z => z = f) (fun _ => False) f) (writePlainLine f text) ws _ :=
    runs_endText (S := fun z => z = f) rfl (hs.fileOf?_self hf) false (by rintro ⟨⟩) text
  refine hline.weaken ?_
  rintro _ ws' _ hreach ⟨htext, hcounted⟩
  refine ⟨?_, ?_, (hreach.included_eq hs f).trans h.included, fun z hne hz => ?_, fun z hne hz => ?_⟩
  · rw [htext, h.text, HeaderLine.joined_append, HeaderLine.joined_singleton]
  · rw [(hcounted text).next, h.nextLine, List.length_append, Nat.add_assoc]
    rfl
  · rw [fileOf?_of_bare (hreach.bare_eq hs)] at hz
    exact (hreach.text_eq hs hne).trans (h.empty z hne hz)
  · rw [fileOf?_of_bare (hreach.bare_eq hs)] at hz
    exact (hreach.written_eq hs id).trans (h.fresh z hne hz)

/-- **The lines for the native libraries.** -/
theorem runs_libraries (h : ws.Begun f lines included) (hf : ws.isFile f = true) (hopen : ws.Open D f)
    (libraries : List String) :
    Runs (Emits F True True D)
      (libraries.forM fun library => writePlainLine f ("#include <" ++ library ++ ">")) ws fun _ ws' =>
        ws'.Begun f (lines ++ libraries.map libraryLine) included := by
  induction libraries generalizing ws lines with
  | nil =>
    refine .pure ?_
    rwa [List.map_nil, List.append_nil]
  | cons library libraries ih =>
    refine .of_sound fun hs => ?_
    have hline := (makes_writePlainLine (F := F) (L := True) (H := True) (D := D) (fun _ => hopen)
      ("#include <" ++ library ++ ">")).both (runs_plainLine h hf _)
    refine .bind hline ?_
    rintro _ ws₁ _ hreach ⟨_, hbegun⟩
    have hf₁ : ws₁.isFile f = true := by
      rw [hreach.extension.isFile (lt_size_of_isFile hf), hf]
    refine (ih hbegun hf₁ (hreach.open_of hs hopen)).weaken fun _ ws' _ _ hbegun => ?_
    rwa [List.append_assoc] at hbegun

theorem runs_headerAround_begun (depth : Nat) (hf : Ongoing F D f ws) (h : ws.Begun f lines included)
    (dep : ComponentId) :
    Runs (Emits F True True ws.Decided) (headerAroundWith (headerWithin depth) dep) ws fun path ws' =>
      ws'.headerPath? dep = some path ∧ ws'.Begun f lines included := by
  have hs := hf.sound
  refine .get fun _ => ?_
  cases hdep : ws.fileOf? dep with
  | none => exact .throw _
  | some file =>
    have hlt := lt_size_of_isFile (isFile_of_fileOf? hdep)
    refine (runs_headerWithin depth hf.primed hlt).weaken ?_
    rintro path ws' _ hreach ⟨output, houtput, hpath⟩
    constructor
    · rw [headerPath?, hreach.fileOf?_eq hs (hs.lt_size_of_fileOf? hdep), hdep,
        Option.bind_some, houtput, hpath, hreach.spellingOf_eq hs hlt]
      rfl
    · exact begun_of_reach h hs hreach hf.home hf.isFile hf.decided

variable {before : List String} {α : Type}

/-- What a list without repetitions comes to when one more is put behind it. -/
theorem eraseDups_concat [BEq α] [LawfulBEq α] (l : List α) (a : α) :
    (l ++ [a]).eraseDups = if l.eraseDups.contains a then l.eraseDups else l.eraseDups ++ [a] := by
  rw [List.eraseDups_append]
  simp only [List.removeAll, List.contains_eq_mem, List.mem_eraseDups]
  by_cases h : a ∈ l
  · simp [h]
  · simp [h]
    rfl

theorem nodup_eraseDups [BEq α] [LawfulBEq α] (l : List α) : l.eraseDups.Nodup := by
  induction l using List.reverseRecOn with
  | nil => exact List.nodup_nil
  | append_singleton l a ih =>
    rw [eraseDups_concat]
    split
    · exact ih
    · next hnew =>
      refine List.nodup_append.mpr ⟨ih, List.nodup_singleton a, ?_⟩
      rintro b hb _ hmem rfl
      rw [List.mem_singleton.mp hmem] at hb
      exact hnew (List.contains_iff_mem.mpr hb)

theorem begun_included (h : ws.Begun f lines included) (hs : ws.Sound) (hf : ws.isFile f = true)
    (path : String) :
    ((Change.edit f (.file (.included path))).apply ws).Begun f lines (included ++ [path]) := by
  have hkeep := ws.modify_keeps (g := (Edit.file (.included path)).apply) f
    (fun c => c.buffer.text) (fun _ => rfl)
  have hwritten := ws.modify_keeps (g := (Edit.file (.included path)).apply) f Component.written (fun _ => rfl)
  have hlt := lt_size_of_isFile hf
  have hfile : ∀ z, ((Change.edit f (.file (.included path))).apply ws).fileOf? z = some f →
      ws.fileOf? z = some f := by
    intro z hz
    have hlegal : (Change.edit f (.file (.included path))).Legal ws := trivial
    have hs' := hs.apply _ hlegal
    have hz' := hs'.lt_size_of_fileOf? hz
    rw [Change.apply, size_modify] at hz'
    rwa [(Change.extends_apply _ hlegal).fileOf?_eq hs hs' hz'] at hz
  refine ⟨(hkeep f).trans h.text, ?_, ?_, fun z hne hz => (hkeep z).trans (h.empty z hne (hfile z hz)),
    fun z hne hz => (hwritten z).trans (h.fresh z hne (hfile z hz))⟩
  · rw [← h.nextLine, nextLine, ws.file?_edit _ _ fun _ => rfl, nextLine]
  · obtain ⟨file, hfile⟩ : ∃ file, (ws.component f).kind.file? = some file :=
      Option.isSome_iff_exists.mp hf
    rw [← h.included, Workspace.included, Change.apply, component_modify_eq,
      if_pos ⟨rfl, hlt⟩, Component.file?, Edit.apply, Kind.file?_mapFile, hfile, Workspace.included,
      Component.file?, hfile]
    rfl

/-- Including a file takes a reader of C++. -/
def ReadsHeaders (before : List String) (ws : Workspace) : Prop :=
  before ≠ [] → ws.readers.contains .cpp = true

theorem ReadsHeaders.of_bare (h : ReadsHeaders before ws) (hb : ws'.bare = ws.bare) :
    ReadsHeaders before ws' := by
  have hreaders : ws'.bare.readers = ws.bare.readers := congrArg readers hb
  intro hne
  exact (congrArg (·.contains Language.cpp) hreaders).trans (h hne)

theorem runs_needReader_contains {P : Change.Class} (language : Language) :
    Runs P (needReader language) ws fun _ ws' => ws' = ws ∧ ws.readers.contains language = true := by
  refine .get fun _ => ?_
  cases h : ws.readers.contains language with
  | false => exact .throw _
  | true => exact .pure ⟨rfl, rfl⟩

/-- **The line for a file it depends on**, if the path is not included yet. -/
theorem runs_includeFile (depth : Nat) (hf : Ongoing F D f ws)
    (h : ws.Begun f (lines ++ before.eraseDups.map includeLine) before.eraseDups)
    (hreads : ReadsHeaders before ws) (dep : ComponentId) :
    Runs (Emits F True True D) (discard <| includeWith (headerWithin depth) f dep) ws fun _ ws' =>
      ∃ path, ws'.headerPath? dep = some path ∧
        ws'.Begun f (lines ++ (before ++ [path]).eraseDups.map includeLine)
          (before ++ [path]).eraseDups ∧ ReadsHeaders (before ++ [path]) ws' := by
  refine .discard (.bind ((runs_headerAround_begun depth hf h dep).mono (Emits.mono hf.others)) ?_)
  rintro path ws₁ hs₁ hreach₁ ⟨hpath, hbegun⟩
  have hf₁ := hf.reach hreach₁
  obtain ⟨file, hfile⟩ : ∃ file, (ws₁.component f).file? = some file :=
    Option.isSome_iff_exists.mp hf₁.isFile
  have hincluded : file.included = before.eraseDups := by
    have := hbegun.included
    rwa [included, hfile] at this
  refine .component fun _ => ?_
  rw [hfile, Option.any_some, hincluded]
  refine .ite (fun hold => ?_) fun hnew => ?_
  · -- a path that was included before adds no line
    refine .pure ⟨path, hpath, ?_, fun _ => ?_⟩
    · rwa [eraseDups_concat, if_pos hold]
    · rw [hreach₁.readers_eq hf.sound]
      refine hreads fun hnone => ?_
      rw [hnone] at hold
      cases hold
  · refine .bind (runs_needReader_contains .cpp) ?_
    rintro _ ws₁ - - ⟨rfl, hreader⟩
    have hline := (makes_writePlainLine (F := F) (L := True) (H := True) (fun _ => hf₁.isOpen)
      ("#include \"" ++ Literal.escape path ++ "\"")).both (runs_plainLine hbegun hf₁.isFile _)
    refine .bind hline ?_
    rintro _ ws₂ hs₂ hreach₂ ⟨_, hbegun₂⟩
    have hf₂ := hf₁.reach hreach₂
    have hnote : Runs (Emits F True True D)
        (updateFile f fun f => { f with included := f.included ++ [path] }) ws₂ fun _ ws' =>
          ws'.Begun f _ (before.eraseDups ++ [path]) :=
      Runs.change (.edit f (.file (.included path))) rfl trivial
        (.page (.included path) fun _ => hf₂.isOpen) (begun_included hbegun₂ hs₂ hf₂.isFile path)
    refine .bind hnote fun _ ws₃ _ hreach₃ hbegun₃ => .pure ⟨path, ?_, ?_, fun _ => ?_⟩
    · exact (hreach₂.trans hreach₃).headerPath?_eq hs₁ hpath
    · rw [eraseDups_concat, if_neg hnew, List.map_append, ← List.append_assoc]
      exact hbegun₃
    · rw [(hreach₂.trans hreach₃).readers_eq hs₁]
      exact hreader

/-- **The lines for the files it depends on**, one for each path. -/
theorem runs_includes (depth : Nat) (hf : Ongoing F D f ws) (before : List String)
    (h : ws.Begun f (lines ++ before.eraseDups.map includeLine) before.eraseDups)
    (hreads : ReadsHeaders before ws) (deps : List ComponentId) :
    Runs (Emits F True True D)
      (deps.forM fun dep => discard <| includeWith (headerWithin depth) f dep) ws fun _ ws' =>
        ∃ paths, deps.mapM ws'.headerPath? = some paths ∧
          ws'.Begun f (lines ++ (before ++ paths).eraseDups.map includeLine)
            (before ++ paths).eraseDups ∧ ReadsHeaders (before ++ paths) ws' := by
  induction deps generalizing ws before with
  | nil =>
    refine .pure ⟨[], rfl, ?_⟩
    rw [List.append_nil]
    exact ⟨h, hreads⟩
  | cons dep deps ih =>
    refine .bind (runs_includeFile depth hf h hreads dep) ?_
    rintro _ ws₁ hs₁ hreach₁ ⟨path, hpath, hbegun, hreads₁⟩
    refine (ih (hf.reach hreach₁) _ hbegun hreads₁).weaken ?_
    rintro _ ws₂ - hreach₂ ⟨paths, hpaths, hbegun₂⟩
    refine ⟨path :: paths, ?_, ?_⟩
    · rw [List.mapM_cons, hreach₂.headerPath?_eq hs₁ hpath, hpaths]
      rfl
    · rwa [List.append_assoc] at hbegun₂

end Begun

end Build

end LightHeaders
