import LightHeaders.Proofs.LineNumbers
import LightHeaders.Proofs.References
import LightHeaders.Proofs.SpelledNames

set_option autoImplicit false

/-! # Headers include what they spell

A header includes the headers of the files that the names in its source led to when they were resolved.
Its lines are printed later, and resolve names once more. Nothing that happens in between changes where
names lead, so whatever a line spells is in the file itself or in a file that the header includes, with
one line that stands before all others (`History.spelled_included`).

That needs the names to be resolved by the request for the header. If the file was settled before, a
file that is added below it can catch a name (`spelled_included_settled_before`).
-/

namespace LightHeaders

open Text Workspace

/-! ## Targets while headers are written -/

section Aimed

variable {F L H : Prop} {D : ComponentId → Prop} {ws ws' : Workspace} {c : Change} {x : ComponentId}

theorem Emits.resolved {target? : Option Target} (h : Emits F L H D ws (.edit x (.resolved target?)))
    (hL : L) : target? = ws.actionTarget? x := by
  cases h with
  | settle mem =>
    cases mem with
    | load mem => cases mem
    | resolved _ _ right => exact right hL
  | page isPage => cases isPage

theorem Emits.aimed (h : Emits F L H D ws c) (hL : L) (legal : c.Legal ws) (haimed : ws.Aimed x) :
    (c.apply ws).Aimed x := by
  intro o hk
  have hquiet := h.quiet hL
  rw [hquiet.alike.actionTarget?_eq]
  rcases c.operation_apply legal hk with hk | hnew | ⟨t?, o', rfl, -, rfl⟩
  · exact haimed o hk
  · cases c with
    | root | below => exact hquiet.elim
    | _ => cases hnew
  · exact .inr (h.resolved hL)

/-- **Writing headers leaves operations with the targets of their names.** -/
theorem Reach.aimed (h : Reach (Emits F L H D) ws ws') (hs : ws.Sound) (hL : L)
    (haimed : ws.Aimed x) : ws'.Aimed x :=
  h.invariant (I := fun ws => ws.Aimed x) hs haimed fun _ _ _ legal hc haimed =>
    hc.aimed hL legal haimed

theorem Workspace.Untouched.aimed {f : ComponentId} {file : SourceFile} (h : ws.Untouched)
    (hfile : (ws.component f).file? = some file) (hnew : file.settled = false)
    (hx : ws.fileOf? x = some f) : ws.Aimed x := by
  refine fun o hk => .inl (h.target x o hk (.inr fun hsettled => ?_))
  rw [hsettled.settled f file hx hfile] at hnew
  cases hnew

end Aimed

/-! ## What a file depends on when its text is written -/

namespace Build

variable {ws linked : Workspace} {f : ComponentId} {file file' : SourceFile} {output : Path}

section Prepare

variable {F : Prop} (h : Awaits F ws f file) (hrun : prepare f file.path ws = .ok output linked)
include h hrun

/-- **Preparing a header**: its path is decided, its page is cleared, and then the names in the file are
resolved. Until then nothing changes but the file itself. -/
theorem Awaits.exists_settle :
    ∃ ws₁ file₁, Reach (Emits False True False fun _ => False) ws ws₁ ∧ ws₁.Sound ∧ ws.Alike ws₁ ∧
      (ws₁.component f).file? = some file₁ ∧ file₁.output? = some output ∧ file₁.settled = file.settled ∧
      file₁.dependencies = file.dependencies ∧ (∀ z, z ≠ f → ws₁.component z = ws.component z) ∧
      .begun f ∈ ws₁.journal ∧ settle f ws₁ = .ok () linked := by
  have hundecided := h.undecided
  have hwritten := ((h.primed.tidy trivial).clean.of_undecided h.sound hundecided
    (h.sound.fileOf?_self h.isFile)).1
  obtain ⟨⟨hs, -, -⟩, hfile, hlight, -⟩ := h
  have hlt := lt_size_of_isFile (isFile_of_file? hfile)
  obtain ⟨output, ws₁, hchoose, hrun⟩ := exists_of_bind_eq_ok hrun
  obtain ⟨_, ws₂, hbegin, hrun⟩ := exists_of_bind_eq_ok hrun
  obtain ⟨_, ws₃, hclear, hrun⟩ := exists_of_bind_eq_ok hrun
  obtain ⟨_, ws₄, hmark, hrun⟩ := exists_of_bind_eq_ok hrun
  obtain ⟨_, ws₅, hsettle, hrun⟩ := exists_of_bind_eq_ok hrun
  cases hrun
  -- the path is chosen and noted with the file
  obtain ⟨hreach₁, ⟨taken, rfl⟩, hundecided₁, hsuits⟩ := (runs_chooseOutput (F := False) (L := True)
    (H := False) (D := fun _ => False) hundecided ⟨file, hfile, hlight, rfl⟩).of_ok hs hchoose
  have hs₁ := hreach₁.sound hs
  obtain ⟨hreach₂, -, hpage⟩ := (runs_beginHeader (F := False) (L := True) (H := False)
    (D := fun _ => False) hundecided₁ hsuits).of_ok hs₁ hbegin
  have hcomponent₂ : ∀ z, ws₂.component z = if z = f then
      (Edit.file (.output output)).apply (ws.component f) else ws.component z := by
    intro z
    cases hbegin
    show ((Change.edit f (.file (.output output))).apply { ws with taken }).component z = _
    rw [Change.apply, component_modify_eq]
    by_cases hz : z = f
    · subst hz
      rw [if_pos ⟨rfl, hreach₁.lt hlt⟩, if_pos rfl]
      rfl
    · rw [if_neg fun hand => hz hand.1, if_neg hz]
      rfl
  have hwritten₂ : (ws₂.component f).written = false := by
    rw [hcomponent₂, if_pos rfl]
    exact hwritten
  have hlt₂ := hreach₂.lt (hreach₁.lt hlt)
  rw [clear_eq hlt₂ hwritten₂] at hclear
  cases hclear
  cases hmark
  have hblank : Reach (Emits False True False fun _ => False) ws₂ (blank ws₂ f) :=
    ((Reach.single (.edit f .cleared) trivial (.page .cleared False.elim)).trans
      (.single (.edit f (.file .restart)) trivial (.page .restart False.elim))).trans
      (.single (.edit f .written) trivial (.page .written False.elim))
  have hbegun : .begun f ∈ (blank ws₂ f).journal := by
    cases hbegin
    exact List.mem_append_right _ (.head _)
  have hreach := (hreach₁.trans hreach₂).trans hblank
  refine ⟨blank ws₂ f, { file with output? := some output, nextLine := 1, included := [] }, hreach,
    hreach.sound hs, hreach.alike_of_emits hs trivial, ?_, rfl, rfl, rfl, fun z hz => ?_, hbegun, hsettle⟩
  · rw [Component.file?] at hfile
    rw [component_blank hlt₂, if_pos rfl, hcomponent₂, if_pos rfl]
    simp [Component.file?, Edit.apply, FileEdit.apply, hfile]
  · rw [component_blank hlt₂, if_neg hz, hcomponent₂, if_neg hz]

/-- **What a file depends on once its header is prepared**: the other files that the names in it lead
to. -/
theorem Awaits.dependencies_eq (hnew : file.settled = false) (hnone : file.dependencies = [])
    (hfile' : (linked.component f).file? = some file') :
    file'.dependencies = (ws.filesOf f (ws.mentionsIn f)).eraseDups := by
  obtain ⟨ws₁, file₁, -, hs₁, halike, hfile₁, -, hsettled, hdependencies, -, -, hsettle⟩ := h.exists_settle hrun
  have hnoted := noted_of_settle hs₁ (halike.loaded (h.primed.loaded trivial)) hfile₁ (hsettled.trans hnew) hsettle
  have hlinked := hnoted.file?_eq hfile₁
  rw [hfile', Option.some.injEq] at hlinked
  rw [hlinked, hdependencies, hnone, addNew_nil_left, files_findings, halike.filesOf_mentionsIn_eq]

end Prepare

end Build

/-! ## The lines of the includes -/

namespace Workspace

theorem includeLine_text_injective : Function.Injective fun path => (includeLine path).text := by
  intro a b hab
  have hquoted := (String.append_right_inj _).mp ((String.append_left_inj _).mp hab)
  exact Literal.escape_injective hquoted

theorem libraryLine_text_ne (library path : String) :
    (libraryLine library).text ≠ (includeLine path).text := by
  intro heq
  have hbracket := congrArg (fun s => s.toList[9]?) heq
  simp [libraryLine, includeLine] at hbracket

/-- **A header is included with one line.** -/
theorem count_includeLine {libraries paths : List String} {path : String} (h : path ∈ paths) :
    ((libraries.map libraryLine ++ paths.eraseDups.map includeLine).map HeaderLine.text).count
      (includeLine path).text = 1 := by
  rw [List.map_append, List.count_append, List.map_map, List.map_map]
  have hlibraries : (libraries.map (HeaderLine.text ∘ libraryLine)).count (includeLine path).text = 0 := by
    refine List.count_eq_zero.mpr fun hmem => ?_
    obtain ⟨library, -, heq⟩ := List.mem_map.mp hmem
    exact libraryLine_text_ne library path heq
  have hpaths : (paths.eraseDups.map (HeaderLine.text ∘ includeLine)).count (includeLine path).text = 1 :=
    List.count_eq_one_of_mem ((Build.nodup_eraseDups paths).map includeLine_text_injective)
      (List.mem_map.mpr ⟨path, List.mem_eraseDups.mpr h, rfl⟩)
  rw [hlibraries, hpaths]

end Workspace

/-! ## Includes in histories -/

theorem History.untouched_of_sourced {ws : Workspace} (h : History SourcedCall ws) : ws.Untouched :=
  (h.mono fun _ _ hc => hc.2.brings : History FreshCall ws).untouched

/-- **A header includes what it spells.** In a history in which components came from files only, nothing
with a line feed was given from outside, all writing was asked for by way of headers and text was
forwarded to files only, with all files loaded, text forwarded to the file around a component only and
nothing below the parameters of functions, let the header of a source be asked for the first time, and
before the names in the source were resolved. It can also be asked for on the way, while other headers
are written. If that succeeds, its text is a block of includes and then the lines of its body, each the
end of a body or the line of a component. What such a line spells of another file stands on it, and just
one line of the block includes the header of that file. -/
theorem History.spelled_included {start ws ws' : Workspace} {f : ComponentId} {file : SourceFile}
    {path : String} (h : History SourcedCall start) (hloaded : start.Loaded)
    (hhome : start.ForwardsHome) (hparams : start.KeepsParams)
    (hway : Reach (Emits True True True fun _ => False) start ws)
    (hfile : (ws.component f).file? = some file) (hlight : file.language? = some .light)
    (hnew : file.output? = none) (hunsettled : file.settled = false)
    (hheader : Build.header f ws = .ok path ws') :
    ∃ output block body,
      path = (ws.spellingOf f).spell output ∧ ws'.disk.readText output = .ok (ws'.text f) ∧
      pieces '\n' (ws'.text f) = block ++ body.map HeaderLine.text ++ [""] ∧
      (∀ l ∈ block, ∃ s, l = "#include <" ++ s ++ ">" ∨ l = "#include \"" ++ s ++ "\"") ∧
      ws'.bodyLines f = some body ∧
      (∀ l ∈ body, (∃ n, l = Workspace.lineAt n none "\x7d") ∨
        ∃ x, ws'.Rendered f x ∧ ws'.ownLine? x = some l) ∧
      ∀ x c g, ws'.Rendered f x → ws'.Spells x (.component c) → ws'.fileOf? c = some g → g ≠ f →
        (∃ l ∈ body, ws'.ownLine? x = some l ∧ Occurs (ws'.qualifiedName c) l.text) ∧
        ∃ q, ws'.headerPath? g = some q ∧
          block.count ("#include \"" ++ Literal.escape q ++ "\"") = 1 := by
  have hstarts : Build.Starts True start := h.starts (fun _ _ hc _ => hc.2) (fun _ _ hc => hc.1) hloaded hhome
  have hs₀ := hstarts.sound
  have hawaits : Build.Awaits True ws f file := ⟨hstarts.reach hway, hfile, hlight, hnew⟩
  have hs := hawaits.sound
  have hhome := hawaits.home
  have huntouched := hway.untouched hs₀ h.untouched_of_sourced
  obtain ⟨-, -, hreach, output, linked, file', paths, lines, hpath, hprepared, hfile', hprinted, -, hread⟩ :=
    hawaits.exists_firstHeader hheader
  have hone := hawaits.oneLine hprepared hfile' hprinted hreach
  have hs' := hreach.sound hs
  have halike := hreach.alike_of_emits hs trivial
  have hf' : ws'.isFile f = true := (halike.isFile_eq f).trans hawaits.isFile
  -- what the file depends on is what the names in it lead to, also when its lines are printed
  have hdependencies : file'.dependencies = (ws'.filesOf f (ws'.mentionsIn f)).eraseDups := by
    rw [halike.filesOf_mentionsIn_eq]
    exact hawaits.dependencies_eq hprepared hunsettled
      (huntouched.dependencies f file hfile hunsettled) hfile'
  obtain ⟨body, hbody, rfl⟩ := Option.map_eq_some_iff.mp hprinted.printed
  refine ⟨output, (file'.libraries.map Workspace.libraryLine ++
    paths.eraseDups.map Workspace.includeLine).map HeaderLine.text, body, hpath, ?_, ?_, ?_, hbody,
    fun l hl => hs'.exists_rendered_of_mem_bodyLines hf' hbody hl, ?_⟩
  · rw [hprinted.text]
    exact hread
  · rw [hprinted.text, HeaderLine.pieces_joined hone, List.map_append]
  · intro l hl
    obtain ⟨line, hline, rfl⟩ := List.mem_map.mp hl
    rcases List.mem_append.mp hline with hline | hline
    · obtain ⟨library, -, rfl⟩ := List.mem_map.mp hline
      exact ⟨library, .inl rfl⟩
    · obtain ⟨included, -, rfl⟩ := List.mem_map.mp hline
      exact ⟨Literal.escape included, .inr rfl⟩
  · intro x c g hx hspells hg hne
    have hdeclared := hx.declaredIn hs'
    obtain ⟨-, hin⟩ := Build.inside_of_rendered hs' (hreach.forwardsHome hs trivial hhome) hf' hx
    constructor
    · -- the component has its own line, and what it spells stands on it
      have hmade := hreach.made hs (hway.made hs₀ (h.made fun _ _ hc => hc.2))
      obtain ⟨i, hi⟩ := Option.isSome_iff_exists.mp
        (hmade.source x (hs'.lt_size_of_fileOf? hin) hdeclared.isFile_eq)
      obtain ⟨l, hl, hown⟩ := hs'.exists_ownLine_of_rendered hf' hbody hx hi
      obtain ⟨text, htext, rfl⟩ := Option.map_eq_some_iff.mp hown
      exact ⟨_, hl, hown, (hspells.occurs htext).behind _⟩
    · -- the name was resolved with the others, so its file is one that the header depends on
      rw [halike.fileOf?_eq] at hin
      have haimed : ws'.Aimed x := hreach.aimed hs trivial (huntouched.aimed hfile hunsettled hin)
      have hkeeps := (hway.alike_of_emits hs₀ trivial).keepsParams hparams
      obtain ⟨p, hp, hleads⟩ := hspells.exists_mention hs' (halike.keepsParams hkeeps) haimed hdeclared
      have hdepends : g ∈ file'.dependencies := by
        rw [hdependencies]
        exact List.mem_eraseDups.mpr (mem_filesOf hp hleads hg hne)
      obtain ⟨q, hq, hheader⟩ := exists_mem_of_mapM hprinted.headers hdepends
      exact ⟨q, hheader, count_includeLine hq⟩

/-- The head of a function spells the type of a parameter, from a file that a function inside it uses as
well; the function inside spells it as a value. -/
theorem History.spelled_included_nested :
    let f := "function x\n param a : g.v\n function y\n  call h.z\n   value g.v\n"
    let disk : Disk := ⟨[(["f.light"], .file (.text f)),
      (["g.light"], .file (.text "declare v : int\n")), (["h.light"], .file (.text "function z\n"))], ⟨"/"⟩⟩
    let ws := Call.play [.registerProject "p" ⟨"/"⟩ ⟨"/o"⟩ .plain, .load 0, .load 1, .load 2, .load 3]
      (Workspace.new {} disk [.light, .cpp])
    let ws' := (Build.header 1).after ws
    History SourcedCall ws ∧ ws.Loaded ∧ ws.ForwardsHome ∧ ws.KeepsParams ∧
      ws'.text 1 = "#include \"/o/g.hpp\"\n#include \"/o/h.hpp\"\n" ++
        "void y() \x7b\n    z(v);\n\x7d\nvoid x(v a) \x7b\n\x7d\n" ∧
      ws'.Rendered 1 4 ∧ ws'.Spells 4 (.component 8) ∧ ws'.fileOf? 8 = some 2 ∧
      ws'.headerPath? 2 = some "/o/g.hpp" ∧
      ∃ block body, pieces '\n' (ws'.text 1) = block ++ body ++ [""] ∧
        block.count "#include \"/o/g.hpp\"" = 1 ∧ ∃ l ∈ body, Occurs (ws'.qualifiedName 8) l := by
  intro f disk ws ws'
  have hhistory : History SourcedCall ws := .play (by decide +kernel)
  obtain ⟨hloaded, hhome, hparams, hok, ⟨file, hfile₁, hlight, hnew, hunsettled⟩, htext, hbody, htype,
      hdeclared, hleads, hfile, hpath⟩ :
      ws.Loaded ∧ ws.ForwardsHome ∧ ws.KeepsParams ∧ (Build.header 1).succeeds ws = true ∧
      (∃ file ∈ (ws.component 1).file?, file.language? = some .light ∧ file.output? = none ∧
        file.settled = false) ∧
      ws'.text 1 = "#include \"/o/g.hpp\"\n#include \"/o/h.hpp\"\n" ++
        "void y() \x7b\n    z(v);\n\x7d\nvoid x(v a) \x7b\n\x7d\n" ∧
      4 ∈ ws'.bodyOf 1 ∧ "g.v" ∈ ws'.lineTypes 4 ∧ (ws'.languageAt 4).builtin? "g.v" = none ∧
      ws'.targetAt? 4 "g.v" = some (.component 8) ∧ ws'.fileOf? 8 = some 2 ∧
      ws'.headerPath? 2 = some "/o/g.hpp" := by decide +kernel
  obtain ⟨path, hheader⟩ : ∃ path, Build.header 1 ws = .ok path ws' := Build.ok_of_succeeds hok
  clear_value ws' ws
  have hrendered : ws'.Rendered 1 4 := .inr ⟨4, hbody, .refl⟩
  have hspells : ws'.Spells 4 (.component 8) := .type htype hdeclared hleads
  obtain ⟨-, block, body, -, -, hpieces, -, -, -, hcover⟩ := hhistory.spelled_included hloaded hhome
    hparams (.refl _ ws) hfile₁ hlight hnew hunsettled hheader
  obtain ⟨⟨l, hl, -, hoccurs⟩, q, hq, hcount⟩ := hcover 4 8 2 hrendered hspells hfile (by decide)
  rw [hpath, Option.some.injEq] at hq
  subst hq
  exact ⟨hhistory, hloaded, hhome, hparams, htext, hrendered, hspells, hfile, hpath, block,
    body.map HeaderLine.text, hpieces, hcount, l.text, List.mem_map_of_mem hl, hoccurs⟩

/-- A file that is added below a source after the names in it were resolved catches one of them: its
line spells what is in the new file, and the header includes the other one only. -/
theorem spelled_included_settled_before :
    let disk : Disk := ⟨[(["p"], .directory), (["p", "f.light"], .file (.text "declare x : int\n value g.v\n")),
      (["p", "g.light"], .file (.text "declare v : int\n")), (["q"], .directory),
      (["q", "k.light"], .file (.text "declare v : int\n"))], ⟨"/"⟩⟩
    let ws := Call.play [.registerProject "p" ⟨"/p"⟩ ⟨"/o"⟩ .plain, .load 0, .load 1, .load 2, .settle 1,
      .addFile (some 1) "g" ⟨"/q/k.light"⟩, .load 5] (Workspace.new {} disk [.light, .cpp])
    let ws' := (Build.header 1).after ws
    History SourcedCall ws ∧ ws.Loaded ∧ ws.ForwardsHome ∧ ws.KeepsParams ∧ ws.output? 1 = none ∧
      ws'.Rendered 1 3 ∧ ws'.Spells 3 (.component 6) ∧ ws'.fileOf? 6 = some 5 ∧
      ((Build.header 5).after ws').headerPath? 5 = some "/o/k.hpp" ∧
      ws'.text 1 = "#include \"/o/g.hpp\"\nint x = v;\n" := by
  intro disk ws ws'
  have hhistory : History SourcedCall ws := .play (by decide +kernel)
  obtain ⟨hbody, hmade, hvalue, hthere, hname, hleads, hrest⟩ : 3 ∈ ws'.bodyOf 1 ∧
      (ws'.component 3).instruction? = some 1 ∧ 0 ∈ ws'.lineValues 3 1 ∧
      ws'.forest.childName? 1 0 = some "g.v" ∧ Literal.reading "g.v" = .name ∧
      ws'.targetAt? 3 "g.v" = some (.component 6) ∧
      (ws.Loaded ∧ ws.ForwardsHome ∧ ws.KeepsParams ∧ ws.output? 1 = none) ∧ ws'.fileOf? 6 = some 5 ∧
      ((Build.header 5).after ws').headerPath? 5 = some "/o/k.hpp" ∧
      ws'.text 1 = "#include \"/o/g.hpp\"\nint x = v;\n" := by decide +kernel
  obtain ⟨⟨hloaded, hhome, hparams, hnew⟩, hrest⟩ := hrest
  exact ⟨hhistory, hloaded, hhome, hparams, hnew, .inr ⟨3, hbody, .refl⟩,
    .value hmade hvalue hthere hname hleads, hrest⟩

end LightHeaders
