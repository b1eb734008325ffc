import LightHeaders.Proofs.Owners
import LightHeaders.Proofs.PathParts

set_option autoImplicit false

/-! # The paths of headers

The header of a Light source is a file in the output directory of its project. Its name is made of the
steps from the root of the project down to the source, with `_` between two of them, and where another
project has taken that path, or is the active one, the name of the project and `_` come before it.

The first project to take a path keeps it, so two sources of different projects share a path only if
the name of a project stands before the name of one of them. And names that hold no `_` themselves can
be read off the name of the header, so then no two sources share a path (`History.outputs_apart`).
-/

namespace LightHeaders

open Text Workspace

/-! ## The names of headers -/

/-- The path is that of a file with the given name in some directory, in its normal form. -/
def Path.IsFileNamed (output : Path) (name : String) : Prop :=
  ∃ dir : Path, output = (dir.join ⟨name⟩).normal

variable {name : String}

theorem Path.IsFileNamed.getLast?_parts {output : Path} (h : output.IsFileNamed name)
    (hname : Path.IsName name) : output.parts.getLast? = some (.name name) := by
  obtain ⟨dir, rfl⟩ := h
  rw [Path.parts_normal, Path.parts_join_name dir hname, Path.normalParts_concat_name,
    List.getLast?_concat]

/-- The file name of the header of a source with the name of the project before it. -/
def Project.prefixedHeaderFile (p : Project) (source : Path) : String :=
  p.name ++ "_" ++ p.headerFile source

theorem Workspace.isFileNamed_of_outputAt? {ws : Workspace} {owner : ProjectId} {output : Path}
    (h : ws.outputAt? owner name = some output) : output.IsFileNamed name := by
  rw [Workspace.outputAt?, Path.absolute?] at h
  split at h
  · cases h
  · obtain rfl := Option.some.inj h
    exact ⟨ws.disk.current.join (ws.project owner).outputDir, by rw [Path.join_assoc]⟩

/-! ## How a path is chosen -/

/-- Another project is the active one or has taken the path. -/
def Workspace.NeedsPrefix (ws : Workspace) (owner : ProjectId) (plain : Path) : Prop :=
  ∃ other, other ≠ owner ∧ (ws.active? = some other ∨ ws.taken.lookup plain = some other)

/-- The header of a source gets the path, without the name of its project. -/
def Workspace.Unprefixed (ws : Workspace) (owner : ProjectId) (source output : Path) : Prop :=
  ws.outputAt? owner ((ws.project owner).headerFile source) = some output ∧ ¬ws.NeedsPrefix owner output

/-- The header of a source gets the path, with the name of its project, for it cannot do without. -/
def Workspace.Prefixed (ws : Workspace) (owner : ProjectId) (source output : Path) : Prop :=
  ws.outputAt? owner ((ws.project owner).prefixedHeaderFile source) = some output ∧
    ∃ plain, ws.outputAt? owner ((ws.project owner).headerFile source) = some plain ∧
      ws.NeedsPrefix owner plain

namespace Build

variable {ws ws' : Workspace} {file : ComponentId} {source output : Path}

theorem absolute_eq_ok {p q : Path} (h : absolute p ws = .ok q ws') :
    ws = ws' ∧ Path.absolute? ws.disk.current p = some q := by
  rw [absolute, bind_get] at h
  cases hq : Path.absolute? ws.disk.current p with
  | none =>
    rw [hq] at h
    cases h
  | some r =>
    rw [hq] at h
    cases h
    exact ⟨rfl, rfl⟩

/-- **What choosing a path does.** The path has the name of the project in it only if it must, and it is
taken for the project unless it was taken before. -/
theorem chooseOutput_eq_ok (h : chooseOutput file source ws = .ok output ws') :
    ∃ owner, ws.owner? file = some owner ∧
      (ws.Unprefixed owner source output ∨ ws.Prefixed owner source output) ∧
      ws' = if (ws.taken.lookup output).isSome then ws
        else { ws with taken := ws.taken ++ [(output, owner)] } := by
  rw [chooseOutput, bind_get] at h
  cases howner : ws.owner? file with
  | none =>
    rw [howner] at h
    cases h
  | some owner =>
    rw [howner] at h
    obtain ⟨plain, _, hfirst, h⟩ := exists_of_bind_eq_ok h
    obtain ⟨rfl, hplain⟩ := absolute_eq_ok hfirst
    refine ⟨owner, rfl, ?_⟩
    have hneeds : (ws.active?.any (· ≠ owner) || (ws.taken.lookup plain).any (· ≠ owner)) = true
        ↔ ws.NeedsPrefix owner plain := by
      simp only [Bool.or_eq_true, Option.any_eq_true, decide_eq_true_eq, NeedsPrefix]
      grind
    dsimp only at h
    split at h
    · next hany =>
      obtain ⟨other, _, hsecond, h⟩ := exists_of_bind_eq_ok h
      obtain ⟨rfl, hother⟩ := absolute_eq_ok hsecond
      cases h
      exact ⟨.inr ⟨hother, plain, hplain, hneeds.mp hany⟩, rfl⟩
    · next hany =>
      cases h
      exact ⟨.inl ⟨hplain, fun hprefix => hany (hneeds.mpr hprefix)⟩, rfl⟩

end Build

theorem Change.taken_apply {ws : Workspace} (c : Change) {p : Path} {owner : ProjectId}
    (htaken : ws.taken.lookup p = some owner) : (c.apply ws).taken.lookup p = some owner := by
  cases c with
  | take output other => simp [apply, List.lookup_append, htaken]
  | _ => exact htaken

/-- The path was chosen in `before` for the header of a source of the project, and the workspace went on
from there. -/
def Workspace.ChosenIn (ws before : Workspace) (file : ComponentId) (source output : Path)
    (owner : ProjectId) : Prop :=
  before.owner? file = some owner ∧ ∃ after, Build.chooseOutput file source before = .ok output after ∧
    Reach (fun _ _ => True) after ws

/-- The path is one that the header of a source can have: it was chosen for it, it has the name of the
source and was taken for its project, or it has the name of the project before that. -/
def Workspace.Entitled (ws : Workspace) (file : ComponentId) (source output : Path) : Prop :=
  ∃ owner, ws.owner? file = some owner ∧ owner < ws.projects.size ∧
    (∃ before, ws.ChosenIn before file source output owner) ∧
    (output.IsFileNamed ((ws.project owner).headerFile source) ∧ ws.taken.lookup output = some owner ∨
      output.IsFileNamed ((ws.project owner).prefixedHeaderFile source))

section Chosen

variable {ws ws' before : Workspace} {file : ComponentId} {source output : Path} {owner : ProjectId}

theorem Reach.taken {P : Change.Class} (h : Reach P ws ws') (htaken : ws.taken.lookup output = some owner) :
    ws'.taken.lookup output = some owner := by
  induction h with
  | refl => exact htaken
  | tail _ step ih =>
    obtain ⟨c⟩ := step
    exact c.taken_apply ih

namespace Workspace

theorem ChosenIn.trans {P : Change.Class} (h : ws.ChosenIn before file source output owner)
    (hreach : Reach P ws ws') : ws'.ChosenIn before file source output owner := by
  obtain ⟨howner, after, hrun, hlater⟩ := h
  exact ⟨howner, after, hrun, hlater.trans (hreach.mono fun _ _ _ => trivial)⟩

/-- A path that was chosen is taken, and by the project it was chosen for if it has no name before it. -/
theorem ChosenIn.taken (h : ws.ChosenIn before file source output owner) :
    ∃ first, ws.taken.lookup output = some first ∧
      (before.Unprefixed owner source output → first = owner) := by
  obtain ⟨howner, after, hrun, hlater⟩ := h
  obtain ⟨other, hother, -, rfl⟩ := Build.chooseOutput_eq_ok hrun
  rw [howner] at hother
  cases hother
  cases hlookup : before.taken.lookup output with
  | none =>
    rw [hlookup, Option.isSome_none, if_neg Bool.false_ne_true] at hlater
    refine ⟨owner, hlater.taken ?_, fun _ => rfl⟩
    simp [List.lookup_append, hlookup]
  | some first =>
    rw [hlookup, Option.isSome_some, if_pos rfl] at hlater
    refine ⟨first, hlater.taken hlookup, fun hplain => ?_⟩
    by_contra hne
    exact hplain.2 ⟨first, hne, .inr hlookup⟩

theorem Chosen.entitled (h : ws.Chosen file source output) (howned : ws.Owned) :
    ws.Entitled file source output := by
  obtain ⟨before, hrun⟩ := h
  obtain ⟨owner, howner, hpath, heq⟩ := Build.chooseOutput_eq_ok hrun
  have hchosen : ws.ChosenIn before file source output owner := ⟨howner, ws, hrun, .refl _ ws⟩
  obtain ⟨first, htaken, hfirst⟩ := hchosen.taken
  have hsame : ws.owner? file = before.owner? file ∧ ws.project owner = before.project owner := by
    rw [heq]
    split <;> exact ⟨owner?_of_components (by rfl) file, rfl⟩
  have hownerNow := hsame.1.trans howner
  refine ⟨owner, hownerNow, howned _ owner hownerNow, ⟨before, hchosen⟩, ?_⟩
  rw [hsame.2]
  rcases hpath with hplain | hprefixed
  · rw [hfirst hplain] at htaken
    exact .inl ⟨isFileNamed_of_outputAt? hplain.1, htaken⟩
  · exact .inr (isFileNamed_of_outputAt? hprefixed.1)

end Workspace

end Chosen

/-! ## What is known of the paths in a history -/

/-- What is known of files: the language that was read is the one of the path, a file with an output was
read, a C++ header is its own output, and a Light source has one that it is entitled to. -/
structure Workspace.Outputs (ws : Workspace) : Prop where
  owned : ws.Owned
  language : ∀ id f l, (ws.component id).file? = some f → f.language? = some l →
    Language.ofPath? f.path = some l
  known : ∀ id f p, (ws.component id).file? = some f → f.output? = some p → ∃ l, f.language? = some l
  cpp : ∀ id f p, (ws.component id).file? = some f → f.output? = some p →
    Language.ofPath? f.path = some .cpp → p = f.path
  light : ∀ id f p, (ws.component id).file? = some f → f.output? = some p →
    Language.ofPath? f.path = some .light → ws.Entitled id f.path p

theorem FileEdit.language?_apply (e : FileEdit) (f : SourceFile) :
    (e.apply f).language? = f.language? ∨ ∃ l, e = .language l ∧ (e.apply f).language? = some l := by
  cases e with
  | language l => exact .inr ⟨l, rfl, rfl⟩
  | library | dependency =>
    simp only [apply]
    split <;> exact .inl rfl
  | _ => exact .inl rfl

section Works

variable {F H : Prop} {ws ws' : Workspace} {c : Change}

variable {K : Kind → Prop}

/-- What a file that is decided is entitled to, it stays entitled to. -/
theorem Works.entitled_apply (h : Works Kind.NoFile F H ws c) (hs : ws.Sound) (legal : c.Legal ws)
    {file : ComponentId} {source output : Path} (hdecided : ws.Decided file)
    (hentitled : ws.Entitled file source output) : (c.apply ws).Entitled file source output := by
  obtain ⟨owner, howner, hlt, ⟨before, hchosen⟩, hpath⟩ := hentitled
  obtain ⟨hlt', hproject⟩ := c.project_apply hlt
  refine ⟨owner, (h.owner?_apply hs legal hdecided).trans howner, hlt',
    ⟨before, hchosen.trans (.single c legal h)⟩, ?_⟩
  rw [hproject]
  exact hpath.imp (fun hboth => ⟨hboth.1, c.taken_apply hboth.2⟩) fun hnamed => hnamed

theorem Workspace.Entitled.output {file other : ComponentId} {source output : Path} (p : Path) (hs : ws.Sound)
    (hlt : other < ws.size) (h : ws.Entitled other source output) :
    ((Change.edit file (.file (.output p))).apply ws).Entitled other source output := by
  obtain ⟨owner, howner, howned, ⟨before, hchosen⟩, hpath⟩ := h
  have hlegal : (Change.edit file (.file (.output p))).Legal ws := trivial
  refine ⟨owner, ?_, howned, ⟨before, hchosen.trans (.single (P := fun _ _ => True) _ hlegal trivial)⟩,
    hpath⟩
  rw [owner?, Change.outermost_apply _ hs hlegal hlt]
  refine Eq.trans ?_ howner
  refine ws.modify_keeps file (fun c => c.file?.bind SourceFile.project?) (fun c => ?_) _
  simp only [Edit.apply, Component.file?, Kind.file?_mapFile]
  cases c.kind.file? <;> rfl

/-- A file after a change: a new one of which nothing is known, or one that was there, with its path. Its
language is as before or the one that its path says, and its output is as before or decided now, to be the
file itself or a path that was chosen for it. -/
theorem Works.file?_cases (h : Works Kind.NoFile F H ws c) (legal : c.Legal ws) {id : ComponentId}
    {f : SourceFile} (hfile : ((c.apply ws).component id).file? = some f) :
    (f.language? = none ∧ f.output? = none) ∨
      ∃ old, (ws.component id).file? = some old ∧ f.path = old.path ∧
        (f.language? = old.language? ∨ ∃ l, f.language? = some l ∧ Language.ofPath? f.path = some l) ∧
        (f.output? = old.output? ∨ ∃ p, c = .edit id (.file (.output p)) ∧ f.output? = some p ∧
          (old.language? = some .cpp ∧ p = old.path ∨
            old.language? = some .light ∧ ws.Chosen id old.path p)) := by
  rcases c.file?_apply legal id with heq | ⟨-, kind, hnew, heq⟩ | ⟨-, g, rfl, heq⟩
  · rw [heq] at hfile
    exact .inr ⟨f, hfile, rfl, .inl rfl, .inl rfl⟩
  · left
    rw [heq] at hfile
    rw [h.blank (fun _ hk => hk) hnew f hfile]
    exact ⟨rfl, rfl⟩
  · rw [heq] at hfile
    obtain ⟨old, hold, rfl⟩ := Option.map_eq_some_iff.mp hfile
    refine .inr ⟨old, hold, g.path_apply old, ?_, ?_⟩
    · rcases g.language?_apply old with hsame | ⟨l, rfl, hl⟩
      · exact .inl hsame
      · right
        refine ⟨l, hl, ?_⟩
        rw [FileEdit.path_apply, (h.licensed old hold).1]
    · rcases g.output?_apply old with hsame | ⟨p, rfl, hp⟩
      · exact .inl hsame
      · obtain ⟨_, hsame, hsuits⟩ := h.licensed
        cases hsame.symm.trans hold
        exact .inr ⟨p, rfl, hp, hsuits⟩

/-- **What is known of the paths of headers is kept by every call.** -/
theorem Works.outputs_apply (h : Works Kind.NoFile F H ws c) (hs : ws.Sound) (legal : c.Legal ws)
    (houtputs : ws.Outputs) : (c.apply ws).Outputs where
  owned := h.owned_apply legal houtputs.owned
  language := by
    intro id f l hfile hl
    rcases h.file?_cases legal hfile with ⟨hnone, -⟩ | ⟨old, hold, hpath, hlanguage, -⟩
    · rw [hnone] at hl
      cases hl
    · rcases hlanguage with hsame | hread
      · rw [hpath]
        exact houtputs.language id old l hold (hsame ▸ hl)
      · obtain ⟨l', hl', hpath'⟩ := hread
        rw [hl'] at hl
        cases hl
        exact hpath'
  known := by
    intro id f p hfile hp
    rcases h.file?_cases legal hfile with ⟨-, hnone⟩ | ⟨old, hold, -, hlanguage, houtput⟩
    · rw [hnone] at hp
      cases hp
    · rcases hlanguage with hsame | ⟨l, hl, -⟩
      · rw [hsame]
        rcases houtput with hkept | ⟨_, -, -, hcpp | hlight⟩
        · exact houtputs.known id old p hold (hkept ▸ hp)
        · exact ⟨_, hcpp.1⟩
        · exact ⟨_, hlight.1⟩
      · exact ⟨l, hl⟩
  cpp := by
    intro id f p hfile hp hcpp
    rcases h.file?_cases legal hfile with ⟨-, hnone⟩ | ⟨old, hold, hpath, -, hsame | ⟨q, -, hq, hsuits⟩⟩
    · rw [hnone] at hp
      cases hp
    · rw [hpath] at hcpp ⊢
      exact houtputs.cpp id old p hold (hsame ▸ hp) hcpp
    · rw [hq] at hp
      cases hp
      rcases hsuits with ⟨-, rfl⟩ | ⟨hlight, -⟩
      · exact hpath.symm
      · rw [hpath, houtputs.language id old .light hold hlight] at hcpp
        cases hcpp
  light := by
    intro id f p hfile hp hlight
    rcases h.file?_cases legal hfile with ⟨-, hnone⟩ | ⟨old, hold, hpath, -, hsame | ⟨q, rfl, hq, hsuits⟩⟩
    · rw [hnone] at hp
      cases hp
    · rw [hsame] at hp
      rw [hpath] at hlight ⊢
      have hdecided : ws.Decided id :=
        Workspace.decided_of_output? (by rw [Workspace.output?, hold, Option.bind_some, hp])
      exact h.entitled_apply hs legal hdecided (houtputs.light id old p hold hp hlight)
    · have hlt := lt_size_of_isFile (isFile_of_file? hold)
      rw [hq] at hp
      cases hp
      rcases hsuits with ⟨hcpp, -⟩ | ⟨-, hchosen⟩
      · rw [hpath, houtputs.language id old .cpp hold hcpp] at hlight
        cases hlight
      · rw [hpath]
        exact (hchosen.entitled houtputs.owned).output p hs hlt

end Works

theorem Workspace.outputs_new (settings : Settings) (disk : Disk) (readers : List Language) :
    (Workspace.new settings disk readers).Outputs := by
  have hnone : ∀ {id f}, ((new settings disk readers).component id).file? ≠ some f := fun hf => by
    rw [component_new] at hf
    cases hf
  refine ⟨fun id p hp => ?_, fun _ _ _ hf => absurd hf hnone, fun _ _ _ hf => absurd hf hnone,
    fun _ _ _ hf => absurd hf hnone, fun _ _ _ hf => absurd hf hnone⟩
  rw [Workspace.projectOf?, component_new] at hp
  cases hp

/-- **In a filed history** files have outputs that they are entitled to. -/
theorem History.outputs {A : Workspace → Call → Prop} {ws : Workspace} (h : History A ws)
    (hA : ∀ ws c, A ws c → c.Filed) : ws.Outputs := by
  exact h.invariant (fun ws c hc => (hA ws c hc).brings) outputs_new
    fun _ _ hs legal hc houtputs => hc.outputs_apply hs legal houtputs

/-! ## Paths stay with their projects -/

/-- **A path is taken once and for all.** Let a filed history lead to `ws` and go on to `ws'`. A path that
is taken in `ws` is taken for the same project in `ws'`. The path of every header of a Light source is
taken, and was chosen for the project that owns the source. A path that was chosen at any time before `ws`
without the name of the project is that project's in `ws'`, so no other project gets it without its
name, whichever project was active and whatever failed in between. -/
theorem History.taken_paths_stay {ws ws' : Workspace} (h : History FiledCall ws)
    (hlater : Continues FiledCall ws ws') :
    (∀ p owner, ws.taken.lookup p = some owner → ws'.taken.lookup p = some owner) ∧
    (∀ file f p, (ws.component file).file? = some f → f.language? = some .light → f.output? = some p →
      (ws.taken.lookup p).isSome = true ∧
        ∃ owner before, ws.owner? file = some owner ∧ ws.ChosenIn before file f.path p owner) ∧
    (∀ before file source p owner, ws.ChosenIn before file source p owner →
      before.Unprefixed owner source p → ws'.taken.lookup p = some owner) ∧
    ∀ before file source owner before' file' source' owner' p,
      ws.ChosenIn before file source p owner → before.Unprefixed owner source p →
      ws.ChosenIn before' file' source' p owner' → before'.Unprefixed owner' source' p →
      owner = owner' := by
  have hreach := hlater.reach (F := False) (H := False) (fun _ _ _ => False.elim) (fun _ _ _ => False.elim)
    h.sound (h.known (fun _ _ _ => False.elim) fun _ _ _ => False.elim).2
  have hplain : ∀ {before file source p owner}, ws.ChosenIn before file source p owner →
      before.Unprefixed owner source p → ws.taken.lookup p = some owner := by
    intro before file source p owner hchosen hunprefixed
    obtain ⟨first, htaken, hfirst⟩ := hchosen.taken
    rwa [← hfirst hunprefixed]
  refine ⟨fun p owner htaken => hreach.taken htaken, fun file f p hfile hlight hp => ?_, ?_, ?_⟩
  · have houtputs := h.outputs fun _ _ hc => hc
    obtain ⟨owner, howner, -, ⟨before, hchosen⟩, -⟩ :=
      houtputs.light file f p hfile hp (houtputs.language file f .light hfile hlight)
    obtain ⟨first, htaken, -⟩ := hchosen.taken
    exact ⟨by rw [htaken]; rfl, owner, before, howner, hchosen⟩
  · intro before file source p owner hchosen hunprefixed
    exact hreach.taken (hplain hchosen hunprefixed)
  · intro before file source owner before' file' source' owner' p hchosen hunprefixed hchosen' hunprefixed'
    exact Option.some.inj ((hplain hchosen hunprefixed).symm.trans (hplain hchosen' hunprefixed'))

/-- Two sources of one name in two projects: the path stays with the first project when the second one is
active and asks for it. -/
theorem History.taken_paths_stay_same_name :
    let disk : Disk := ⟨[(["x"], .directory), (["x", "u.light"], .file (.text "function f\n")),
      (["y"], .directory), (["y", "u.light"], .file (.text "function f\n"))], ⟨"/"⟩⟩
    let settings : Settings := { outputDir := ⟨"/o"⟩ }
    let ws := Call.play [.openProject settings "p" ⟨"x"⟩, .openProject settings "q" ⟨"y"⟩,
      .compile settings ⟨"x/u.light"⟩] (Workspace.new settings disk [.light, .cpp])
    let ws' := Call.play [.compile settings ⟨"y/u.light"⟩] ws
    History FiledCall ws ∧ Continues FiledCall ws ws' ∧
      ws.ChosenIn ws 1 ⟨"/x/u.light"⟩ ⟨"/o/u.hpp"⟩ 0 ∧ ws.Unprefixed 0 ⟨"/x/u.light"⟩ ⟨"/o/u.hpp"⟩ ∧
      ws'.active? = some 1 ∧ ws'.taken.lookup ⟨"/o/u.hpp"⟩ = some 0 := by
  intro disk settings ws ws'
  have hhistory : History FiledCall ws := .play (by decide +kernel)
  obtain ⟨hplays, hrun, howner, hat, hactive, htaken, hforeign⟩ :
      Call.Plays FiledCall ws [.compile settings ⟨"y/u.light"⟩] ∧
      (Build.chooseOutput 1 ⟨"/x/u.light"⟩).run' ws = some ⟨"/o/u.hpp"⟩ ∧ ws.owner? 1 = some 0 ∧
      ws.outputAt? 0 ((ws.project 0).headerFile ⟨"/x/u.light"⟩) = some ⟨"/o/u.hpp"⟩ ∧
      ws.active? = some 0 ∧ ws.taken.lookup ⟨"/o/u.hpp"⟩ = some 0 ∧ ws'.active? = some 1 := by decide +kernel
  have hlater : Continues FiledCall ws ws' := .play hplays
  clear_value ws' ws
  have hchosen : ws.ChosenIn ws 1 ⟨"/x/u.light"⟩ ⟨"/o/u.hpp"⟩ 0 := by
    delta EStateM.run' EStateM.run at hrun
    cases hchoose : Build.chooseOutput 1 ⟨"/x/u.light"⟩ ws with
    | error e after =>
      rw [hchoose] at hrun
      cases hrun
    | ok output after =>
      rw [hchoose] at hrun
      cases hrun
      obtain ⟨_, -, -, heq⟩ := Build.chooseOutput_eq_ok hchoose
      rw [htaken, Option.isSome_some, if_pos rfl] at heq
      exact ⟨howner, ws, by rw [heq] at hchoose; exact hchoose, .refl _ ws⟩
  have hunprefixed : ws.Unprefixed 0 ⟨"/x/u.light"⟩ ⟨"/o/u.hpp"⟩ := by
    refine ⟨hat, ?_⟩
    rintro ⟨other, hne, hother | hother⟩
    · exact hne (Option.some.inj (hother.symm.trans hactive))
    · exact hne (Option.some.inj (hother.symm.trans htaken))
  exact ⟨hhistory, hlater, hchosen, hunprefixed, hforeign,
    (hhistory.taken_paths_stay hlater).2.2.1 _ _ _ _ _ hchosen hunprefixed⟩

/-! ## Sources told apart by their headers -/

/-- The steps with an empty one if there is none. -/
def padded (steps : List String) : List String := if steps = [] then [""] else steps

/-- The name of a project can be told from the names of headers: it is a single step without `_`. -/
def Project.Legible (p : Project) : Prop := '_' ∉ p.name.toList ∧ '/' ∉ p.name.toList

instance (p : Project) : Decidable p.Legible := inferInstanceAs (Decidable (_ ∧ _))

/-- The names of two projects can be told from the names of headers, and from one another. -/
structure Workspace.NamesApart (ws : Workspace) (a b : ProjectId) : Prop where
  left : (ws.project a).Legible
  right : (ws.project b).Legible
  injective : (ws.project a).name = (ws.project b).name → a = b

/-- A source is below the root of its project, by steps that hold no `_` and of which the first is not the
name of the project of another source. -/
def Workspace.Legible (ws : Workspace) (owner other : ProjectId) (source : Path) : Prop :=
  ∃ steps, source.stepsBelow? (ws.project owner).root = some steps ∧
    (∀ s ∈ steps, Path.IsName s ∧ '_' ∉ s.toList) ∧ steps.head? ≠ some (ws.project other).name

section Legible

variable {steps steps' : List String}

theorem padded_ne_nil (steps : List String) : padded steps ≠ [] := by
  rw [padded]
  split
  · exact List.cons_ne_nil _ _
  · next h => exact h

theorem padded_legible (h : ∀ s ∈ steps, Path.IsName s ∧ '_' ∉ s.toList) :
    ∀ s ∈ padded steps, '_' ∉ s.toList := by
  intro s hs
  rw [padded] at hs
  split at hs
  · rw [List.mem_singleton.mp hs]
    decide
  · exact (h s hs).2

theorem padded_injective (h : ∀ s ∈ steps, Path.IsName s ∧ '_' ∉ s.toList)
    (h' : ∀ s ∈ steps', Path.IsName s ∧ '_' ∉ s.toList) (heq : padded steps = padded steps') :
    steps = steps' := by
  have hempty : ¬Path.IsName "" := fun hname => absurd hname.2 (by decide)
  rw [padded, padded] at heq
  split at heq
  · split at heq
    · next h₁ h₂ => rw [h₁, h₂]
    · rw [← heq] at h'
      exact absurd (h' _ (.head _)).1 hempty
  · split at heq
    · rw [heq] at h
      exact absurd (h _ (.head _)).1 hempty
    · exact heq

theorem glue_padded (steps : List String) : glue "_" (padded steps) = glue "_" steps := by
  rw [padded]
  split
  · next h =>
    rw [h]
    rfl
  · rfl

theorem glue_cons_padded (name : String) (steps : List String) :
    glue "_" (name :: padded steps) = name ++ "_" ++ glue "_" steps := by
  rw [← glue_padded steps]
  obtain ⟨first, rest, hrest⟩ := List.exists_cons_of_ne_nil (padded_ne_nil steps)
  rw [hrest, ← String.toList_inj]
  simp [glue, Text.join]

theorem isName_header {s : String} (h : '/' ∉ s.toList) : Path.IsName (s ++ "." ++ headerSuffix) := by
  have hlength : 4 ≤ (s ++ "." ++ headerSuffix).length := by
    rw [String.length_append, String.length_append]
    show 4 ≤ s.length + 1 + 3
    omega
  refine Path.isName_iff.mpr ⟨?_, ?_, ?_, ?_⟩
  · rw [String.toList_append, String.toList_append]
    simp only [List.mem_append, not_or]
    exact ⟨⟨h, by decide⟩, by decide⟩
  · intro heq
    rw [heq] at hlength
    exact absurd hlength (by decide)
  · intro heq
    rw [heq] at hlength
    exact absurd hlength (by decide)
  · intro heq
    rw [heq] at hlength
    exact absurd hlength (by decide)

theorem slash_not_mem_glue (h : ∀ s ∈ steps, Path.IsName s) : '/' ∉ (glue "_" steps).toList := by
  intro hmem
  rw [glue, String.toList_ofList] at hmem
  rcases mem_of_mem_join hmem with hmem | ⟨piece, hpiece, hmem⟩
  · exact absurd hmem (by decide)
  · obtain ⟨s, hs, rfl⟩ := List.mem_map.mp hpiece
    exact (h s hs).1 hmem

end Legible

/-- What is known of the header of a legible source: its path tells the steps of the source, behind the
name of its project or, if the project has taken the path, without it. -/
theorem Workspace.Entitled.steps {ws : Workspace} {file : ComponentId} {source output : Path}
    {owner : ProjectId} {steps : List String} (h : ws.Entitled file source output)
    (hproject : (ws.project owner).Legible) (howner : ws.owner? file = some owner)
    (hsteps : source.stepsBelow? (ws.project owner).root = some steps)
    (hlegible : ∀ s ∈ steps, Path.IsName s ∧ '_' ∉ s.toList) :
    ∃ texts : List String, texts ≠ [] ∧ (∀ s ∈ texts, '_' ∉ s.toList) ∧
      output.parts.getLast? = some (.name (glue "_" texts ++ "." ++ headerSuffix)) ∧
      (texts = padded steps ∧ ws.taken.lookup output = some owner ∨
        texts = (ws.project owner).name :: padded steps) := by
  obtain ⟨other, hother, -, -, hpath⟩ := h
  rw [howner] at hother
  cases hother
  have hname : Project.headerName (ws.project owner).root source = glue "_" steps := by
    rw [Project.headerName, hsteps]
  have hslash := slash_not_mem_glue fun s hs => (hlegible s hs).1
  rcases hpath with ⟨hplain, htaken⟩ | hprefixed
  · refine ⟨padded steps, padded_ne_nil steps, padded_legible hlegible, ?_, .inl ⟨rfl, htaken⟩⟩
    rw [Project.headerFile, hname] at hplain
    rw [glue_padded]
    exact hplain.getLast?_parts (isName_header hslash)
  · obtain ⟨hline, hsolid⟩ := hproject
    refine ⟨(ws.project owner).name :: padded steps, List.cons_ne_nil _ _, ?_, ?_, .inr rfl⟩
    · intro s hs
      rcases List.mem_cons.mp hs with rfl | hs
      · exact hline
      · exact padded_legible hlegible s hs
    · rw [Project.prefixedHeaderFile, Project.headerFile, hname, ← String.append_assoc,
        ← String.append_assoc, ← glue_cons_padded] at hprefixed
      refine hprefixed.getLast?_parts (isName_header ?_)
      rw [glue_cons_padded, String.toList_append, String.toList_append]
      simp only [List.mem_append, not_or]
      exact ⟨⟨hsolid, by decide⟩, hslash⟩

/-! ## Different sources, different paths -/

/-- **No header overwrites another**, as far as names can be told apart. Two Light sources whose headers
have the same path are of one project, or the path has the name of a project before that of the source.
And if no step below the roots of their projects and no name of these projects holds a `_`, the names of
the projects differ and the first step of neither source is the name of the project of the other, then
sources at different paths have headers at different paths, whatever was asked for in which order. -/
theorem History.outputs_apart {ws : Workspace} {f g : ComponentId} {file file' : SourceFile}
    {output output' : Path} (h : History FiledCall ws)
    (hf : (ws.component f).file? = some file) (hlight : file.language? = some .light)
    (hout : file.output? = some output)
    (hg : (ws.component g).file? = some file') (hlight' : file'.language? = some .light)
    (hout' : file'.output? = some output') :
    ∃ a b, ws.owner? f = some a ∧ ws.owner? g = some b ∧
      (a ≠ b → output = output' →
        output.IsFileNamed ((ws.project a).prefixedHeaderFile file.path) ∨
          output.IsFileNamed ((ws.project b).prefixedHeaderFile file'.path)) ∧
      (ws.NamesApart a b → ws.Legible a b file.path → ws.Legible b a file'.path →
        file.path.parts ≠ file'.path.parts → output ≠ output') := by
  have houtputs := h.outputs fun _ _ hc => hc
  have hpath := houtputs.language f file .light hf hlight
  have hpath' := houtputs.language g file' .light hg hlight'
  have hentitled := houtputs.light f file output hf hout hpath
  have hentitled' := houtputs.light g file' output' hg hout' hpath'
  obtain ⟨a, ha, -, -, hchosen⟩ := id hentitled
  obtain ⟨b, hb, -, -, hchosen'⟩ := id hentitled'
  refine ⟨a, b, ha, hb, ?_, ?_⟩
  · rintro hab rfl
    rcases hchosen with ⟨-, htaken⟩ | hprefixed
    · rcases hchosen' with ⟨-, htaken'⟩ | hprefixed'
      · exact absurd (Option.some.inj (htaken.symm.trans htaken')) hab
      · exact .inr hprefixed'
    · exact .inl hprefixed
  · rintro hnames ⟨steps, hsteps, hlegible, hhead⟩ ⟨steps', hsteps', hlegible', hhead'⟩ hne rfl
    obtain ⟨texts, hnil, hline, hlast, hcase⟩ := hentitled.steps hnames.left ha hsteps hlegible
    obtain ⟨texts', hnil', hline', hlast', hcase'⟩ := hentitled'.steps hnames.right hb hsteps' hlegible'
    have htexts : texts = texts' := by
      have hname := Path.Part.name.inj (Option.some.inj (hlast.symm.trans hlast'))
      exact glue_injective_of_not_mem hnil hnil' hline hline'
        ((String.append_left_inj _).mp ((String.append_left_inj _).mp hname))
    -- one project and the same steps mean one path
    have hsame : a = b → padded steps = padded steps' → False := by
      rintro rfl hpadded
      have heq := padded_injective hlegible hlegible' hpadded
      rw [← heq] at hsteps'
      rw [Path.parts_of_stepsBelow? hpath hsteps fun s hs => (hlegible s hs).1,
        Path.parts_of_stepsBelow? hpath' hsteps' fun s hs => (hlegible s hs).1] at hne
      exact hne rfl
    -- a project before the steps of one source is not the first step of the other
    have hmixed : ∀ {p : ProjectId} {xs ys : List String}, xs.head? ≠ some (ws.project p).name →
        padded xs = (ws.project p).name :: padded ys → False := by
      intro p xs ys hxs heq
      rw [padded] at heq
      split at heq
      · exact padded_ne_nil ys (List.cons.inj heq).2.symm
      · refine hxs ?_
        rw [heq]
        rfl
    rcases hcase with ⟨rfl, htaken⟩ | rfl
    · rcases hcase' with ⟨rfl, htaken'⟩ | rfl
      · exact hsame (Option.some.inj (htaken.symm.trans htaken')) htexts
      · exact hmixed hhead htexts
    · rcases hcase' with ⟨rfl, -⟩ | rfl
      · exact hmixed hhead' htexts.symm
      · obtain ⟨hname, hpadded⟩ := List.cons.inj htexts
        exact hsame (hnames.injective hname) hpadded

/-- Two sources of one name in two projects: the second header has the name of its project before it. -/
theorem History.outputs_apart_same_name :
    let disk : Disk := ⟨[(["x"], .directory), (["x", "u.light"], .file (.text "function f\n")),
      (["y"], .directory), (["y", "u.light"], .file (.text "function f\n"))], ⟨"/"⟩⟩
    let settings : Settings := { outputDir := ⟨"/o"⟩ }
    let ws := Call.play [.openProject settings "p" ⟨"x"⟩, .openProject settings "q" ⟨"y"⟩,
      .compile settings ⟨"x/u.light"⟩, .compile settings ⟨"y/u.light"⟩]
      (Workspace.new settings disk [.light, .cpp])
    History FiledCall ws ∧ ws.NamesApart 0 1 ∧ ws.Legible 0 1 ⟨"/x/u.light"⟩ ∧
      ws.Legible 1 0 ⟨"/y/u.light"⟩ ∧
      ws.output? 1 = some ⟨"/o/u.hpp"⟩ ∧ ws.output? 3 = some ⟨"/o/q_u.hpp"⟩ ∧
      ws.output? 1 ≠ ws.output? 3 := by
  intro disk settings ws
  have hhistory : History FiledCall ws := .play (by decide +kernel)
  obtain ⟨hleft, hright, hinjective, hsteps, hsteps', hhead, hhead', howner, howner',
      ⟨file, hfile, hlight, hout, hpath⟩, ⟨file', hfile', hlight', hout', hpath'⟩⟩ :
      (ws.project 0).Legible ∧ (ws.project 1).Legible ∧ (ws.project 0).name ≠ (ws.project 1).name ∧
      Path.stepsBelow? ⟨"/x/u.light"⟩ (ws.project 0).root = some ["u"] ∧
      Path.stepsBelow? ⟨"/y/u.light"⟩ (ws.project 1).root = some ["u"] ∧
      ["u"].head? ≠ some (ws.project 1).name ∧ ["u"].head? ≠ some (ws.project 0).name ∧
      ws.owner? 1 = some 0 ∧ ws.owner? 3 = some 1 ∧
      (∃ file ∈ (ws.component 1).file?, file.language? = some .light ∧
        file.output? = some ⟨"/o/u.hpp"⟩ ∧ file.path = ⟨"/x/u.light"⟩) ∧
      ∃ file ∈ (ws.component 3).file?, file.language? = some .light ∧
        file.output? = some ⟨"/o/q_u.hpp"⟩ ∧ file.path = ⟨"/y/u.light"⟩ := by decide +kernel
  clear_value ws
  have hstep : ∀ s ∈ ["u"], Path.IsName s ∧ '_' ∉ s.toList := by decide
  have hnames : ws.NamesApart 0 1 := ⟨hleft, hright, fun heq => absurd heq hinjective⟩
  have hx : ws.Legible 0 1 ⟨"/x/u.light"⟩ := ⟨["u"], hsteps, hstep, hhead⟩
  have hy : ws.Legible 1 0 ⟨"/y/u.light"⟩ := ⟨["u"], hsteps', hstep, hhead'⟩
  obtain ⟨a, b, ha, hb, -, hapart⟩ :=
    hhistory.outputs_apart hfile hlight hout hfile' hlight' hout'
  rw [howner] at ha
  rw [howner'] at hb
  cases ha
  cases hb
  rw [hpath, hpath'] at hapart
  have hne := hapart hnames hx hy (by decide)
  have houtput : ws.output? 1 = some ⟨"/o/u.hpp"⟩ := by rw [Workspace.output?, hfile]; exact hout
  have houtput' : ws.output? 3 = some ⟨"/o/q_u.hpp"⟩ := by rw [Workspace.output?, hfile']; exact hout'
  refine ⟨hhistory, hnames, hx, hy, houtput, houtput', fun heq => hne ?_⟩
  rw [houtput, houtput'] at heq
  exact Option.some.inj heq

/-- Two sources of one project whose headers have one path: the `_` in the name of the one stands for the
separator before the other. The second header is written over the first. -/
theorem outputs_apart_underscore :
    let disk : Disk := ⟨[(["a"], .directory), (["a", "b.light"], .file (.text "function f\n")),
      (["a_b.light"], .file (.text "function g\n"))], ⟨"/"⟩⟩
    let settings : Settings := { outputDir := ⟨"/o"⟩ }
    let ws := Call.play [.openProject settings "p" ⟨"/"⟩, .compile settings ⟨"/a/b.light"⟩,
      .compile settings ⟨"/a_b.light"⟩] (Workspace.new settings disk [.light, .cpp])
    History FiledCall ws ∧
      ((ws.component 1).file?.map fun file => (file.path, file.output?))
        = some (⟨"/a_b.light"⟩, some ⟨"/o/a_b.hpp"⟩) ∧
      ((ws.component 3).file?.map fun file => (file.path, file.output?))
        = some (⟨"/a/b.light"⟩, some ⟨"/o/a_b.hpp"⟩) ∧
      ws.disk.shown? ⟨"/o/a_b.hpp"⟩ = some "void g() \x7b\n\x7d\n" := by
  intro disk settings ws
  exact ⟨.play (by decide +kernel), by decide +kernel⟩

end LightHeaders
