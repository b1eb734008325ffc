import LightHeaders.Proofs.Declarations
import LightHeaders.Proofs.HeaderRequests

set_option autoImplicit false

/-! # What is used is declared

Declarations that nothing refers to can be left out. What is used is not, as long as it is used in time:
what a file uses is marked when its header is begun, and the text of a header is written after those of
the files it includes were begun. So what is used in a file is declared in any header that is begun after
that of the file, in that of the file itself, and in any header that includes it
(`History.used_declared`).

A type that is declared is not marked, nor is a function around what is used; and what a later header uses
can be missing in a header that is there (`used_declared_missing`). Files are loaded beforehand: a name can
lead elsewhere once another file is loaded, and then what it leads to was not marked.
-/

namespace LightHeaders

open Text Build

namespace Workspace

variable (ws : Workspace)

/-- The header of `f` is begun before the text of the header of `g` is written: they are the same, or `g`
includes `f`, or `f` comes first. -/
def InTime (g f : ComponentId) : Prop :=
  f = g ∨ f ∈ ws.filesOf g (ws.mentionsIn g) ∨ [Event.begun f, .begun g].Sublist ws.journal

/-- `a` is referred to in time for the text of the header of `g`: it was before, or it is the main function
of the entry, or it is used in a file whose header is made now. -/
def Referred (start : Workspace) (entry : ComponentId) (g a : ComponentId) : Prop :=
  (start.component a).referenced = true ∨ (start.component entry).child? mainName = some a ∨
    ∃ f x, ws.InTime g f ∧ start.Fresh f ∧ ws.DeclaredIn f x ∧ ws.Uses x a

end Workspace

/-- What comes before another thing that stands in the front part stands there too. -/
theorem mem_of_pair_sublist {α : Type} {a b : α} {front back : List α} (h : [a, b].Sublist (front ++ back))
    (hnodup : (front ++ back).Nodup) (hb : b ∈ front) : a ∈ front := by
  have hback : b ∉ back := fun hmem => (List.nodup_append.mp hnodup).2.2 b hb b hmem rfl
  obtain ⟨first, second, hsplit, hfirst, hsecond⟩ := List.sublist_append_iff.mp h
  rcases first with _ | ⟨a', _ | ⟨b', rest⟩⟩
  · rw [List.nil_append] at hsplit
    subst hsplit
    exact absurd (hsecond.subset (by simp)) hback
  · rw [List.cons_append, List.nil_append, List.cons.injEq] at hsplit
    obtain ⟨-, rfl⟩ := hsplit
    exact absurd (hsecond.subset (.head _)) hback
  · rw [List.cons_append, List.cons.injEq] at hsplit
    exact hfirst.subset (hsplit.1 ▸ (.head _))

namespace Build

variable {start ws' : Workspace} {g : ComponentId}

/-- **What is used in time is marked when the request is met**: the header of the file that uses it was
begun by then. -/
theorem Requested.exists_line (h₀ : Starts True start) (hmade : start.Made) (huntouched : start.Untouched)
    (hreach : Reach (Emits True True True fun _ => False) start ws') (h : Requested True start g ws')
    (hg : start.Fresh g) {M : ComponentId → Prop} (hM : ∀ a, M a → (start.component a).referenced = true ∨
      ∃ f x, ws'.InTime g f ∧ start.Fresh f ∧ ws'.DeclaredIn f x ∧ ws'.Uses x a)
    {c : ComponentId} (hc : ws'.Kept M g c) :
    ∃ l ∈ pieces '\n' (ws'.text g), ∃ level text, ws'.Introduces c text ∧
      l = String.ofList (blanks (4 * level)) ++ text := by
  obtain ⟨nested, path, ws₁, ws₂, hway, hspread₁, hundecided, hrun, hspread₂, hjournal, htext⟩ := h
  obtain ⟨file, hfile, hlight, houtput, hnew⟩ := hspread₁.fresh g hg hundecided
  have hawaits : Awaits True ws₁ g file := ⟨h₀.reach hway, hfile, hlight, houtput⟩
  have hs₁ := hawaits.sound
  obtain ⟨hreach₁, output, linked, file', paths, lines, -, hprepare, hfile', hprinted, hstaged, -⟩ :=
    hawaits.firstHeader hrun
  have hone := hawaits.oneLine hprepare hfile' hprinted hreach₁
  have hs₂ := hreach₁.sound hs₁
  have hreach₂ := hway.trans (hreach₁.mono (Emits.mono fun _ => False.elim))
  have halike' := hreach.alike_of_emits h₀.sound trivial
  have halike₁ := hway.alike_of_emits h₀.sound trivial
  have halike₂ := hreach₂.alike_of_emits h₀.sound trivial
  obtain ⟨-, -, hbegun, -⟩ := hawaits.files hprepare
  have hbegun₂ : .begun g ∈ ws₂.journal := hstaged.journal.subset hbegun
  have hof : ∀ {f}, .begun f ∈ ws₂.journal → ws₂.Decided f := fun hmem =>
    Event.marked_begun_iff.mp (hs₂.journal.marked _ hmem)
  -- whatever file is in time is decided by now
  have hdecided : ∀ f, start.Fresh f → ws'.InTime g f → ws₂.Decided f := by
    rintro f hfresh (rfl | hincluded | hfirst)
    · exact hof hbegun₂
    · have hdependencies := hawaits.dependencies_eq hprepare hnew
        ((hway.untouched h₀.sound huntouched).dependencies g file hfile hnew) hfile'
      rw [halike'.filesOf_mentionsIn_eq, ← halike₁.filesOf_mentionsIn_eq, ← List.mem_eraseDups,
        ← hdependencies] at hincluded
      obtain ⟨q, -, hq⟩ := exists_mem_of_mapM hprinted.headers hincluded
      have hself : ws₂.fileOf? f = some f := hs₂.fileOf?_self (by rw [halike₂.isFile_eq]; exact hfresh.isFile)
      rw [Workspace.headerPath?, hself, Option.bind_some] at hq
      obtain ⟨p, hp, -⟩ := Option.map_eq_some_iff.mp hq
      exact Workspace.decided_of_output? hp
    · obtain ⟨rest, hrest⟩ := hjournal
      rw [← hrest] at hfirst
      refine hof (mem_of_pair_sublist hfirst ?_ hbegun₂)
      rw [hrest]
      exact (hreach.sound h₀.sound).journal.nodup
  have hmarked : ∀ a, M a → (ws₂.component a).referenced = true := by
    intro a ha
    rcases hM a ha with hbefore | ⟨f, x, hin, hfresh, hx, ha⟩
    · exact hreach₂.referenced h₀.sound hbefore
    · exact hspread₂.marked f hfresh (hdecided f hfresh hin) x a (halike'.declaredIn_iff.mp hx)
        (halike'.uses_iff.mp ha)
  obtain ⟨body, hbody, rfl⟩ := Option.map_eq_some_iff.mp hprinted.printed
  have hkept : ws₂.Kept M g c := hc.alike (halike'.symm.trans halike₂) fun _ ha => ha
  obtain ⟨l, hl, level, text, hintroduces, heq⟩ := hkept.exists_line hs₂ (hreach₂.made h₀.sound hmade)
    hmarked (by rw [halike₂.isFile_eq]; exact hg.isFile) hbody
  refine ⟨l.text, ?_, level, text, (halike₂.symm.trans halike').introduces hintroduces, heq⟩
  rw [htext, hprinted.text, HeaderLine.pieces_joined hone]
  exact List.mem_append_left _ (List.mem_map_of_mem (List.mem_append_right _ hl))

variable {entry : ComponentId}

/-- Translating a file with all files loaded is to make its header once its main function is marked. -/
theorem exists_of_translate {ws : Workspace} {project : ProjectId} {result : Compiled} (hs : ws.Sound)
    (hl : ws.Loaded) (h : translate project entry ws = .ok result ws') :
    ∃ start path, header entry start = .ok path ws' ∧
      Reach (Emits True True True fun _ => False) ws start ∧ (∀ f, ws.Fresh f → start.Fresh f) ∧
      ∀ a, (ws.component a).referenced = true ∨ (ws.component entry).child? mainName = some a →
        (start.component a).referenced = true := by
  obtain ⟨_, _, hload, h⟩ := exists_of_bind_eq_ok h
  rw [load_of_loaded hl entry] at hload
  cases hload
  obtain ⟨_, _, hget, h⟩ := exists_of_bind_eq_ok h
  cases hget
  cases hmain : (ws.component entry).child? mainName with
  | none =>
    rw [hmain] at h
    obtain ⟨path, _, hheader, h⟩ := exists_of_bind_eq_ok h
    obtain ⟨_, _, hget, h⟩ := exists_of_bind_eq_ok h
    cases hget
    cases h
    exact ⟨ws, path, hheader, .refl _ ws, fun _ hf => hf, fun a ha => ha.elim id (by rintro ⟨⟩)⟩
  | some function =>
    rw [hmain] at h
    obtain ⟨_, _, hmark, h⟩ := exists_of_bind_eq_ok h
    cases hmark
    obtain ⟨path, _, hheader, h⟩ := exists_of_bind_eq_ok h
    obtain ⟨_, _, hget, h⟩ := exists_of_bind_eq_ok h
    cases hget
    cases h
    have hreach : Reach (Emits True True True fun _ => False) ws
        ((Change.edit function .referenced).apply ws) :=
      .single _ trivial (.settle (.referenced function))
    refine ⟨_, path, hheader, hreach, ?_, ?_⟩
    · rintro f ⟨file, hfile, hrest⟩
      refine ⟨file, ?_, hrest⟩
      rw [← hfile]
      exact ws.modify_keeps function (g := Edit.referenced.apply) Component.file? (fun _ => rfl) f
    · rintro a (ha | ha)
      · exact hreach.referenced hs ha
      · cases ha
        show ((ws.modify function Edit.referenced.apply).component function).referenced = true
        rw [Workspace.component_modify_eq, if_pos ⟨rfl, hs.lt_of_child? hmain⟩]
        rfl

theorem requested_of_header (h₀ : Starts True start) {path : String} (hentry : entry < start.size)
    (h : header entry start = .ok path ws') (hg : start.isFile g = true) (hnot : ¬start.Decided g)
    (hdecided : ws'.Decided g) : Requested True start g ws' := by
  obtain ⟨-, hafter⟩ := (asks h₀ start.undecided (.refl True start fun _ => True) le_rfl hentry).of_ok
    h₀.sound h
  exact hafter.requested g trivial hg hnot hdecided

end Build

/-- **What is used is declared.** In a history in which components came from files only, nothing with a line
feed was given from outside, all writing was asked for by way of headers and text was forwarded to files
only, let an entry be compiled where all files are loaded and text is forwarded to the file around a
component only. If that succeeds, let `g` be a Light source whose header was made by it. Then whatever is
referred to in time is declared on a line of the header of `g`, if it is in `g`, at any depth in namespaces
and functions: as long as the functions around it are not left out. -/
theorem History.used_declared {ws ws₁ ws' : Workspace} {settings : Settings} {entry : Path}
    {found : ProjectId × ComponentId} {result : Compiled} (h : History SourcedCall ws)
    (hentry : Build.entryFile settings entry ws = .ok found ws₁) (hloaded : ws₁.Loaded)
    (hhome : ws₁.ForwardsHome) (hok : Build.compile settings entry ws = .ok result ws')
    {g : ComponentId} (hg : ws₁.Fresh g) (hmade : ws'.Decided g) {c : ComponentId}
    (hc : ws'.Kept (ws'.Referred ws₁ found.2 g) g c) :
    ∃ l ∈ pieces '\n' (ws'.text g), ∃ level text, ws'.Introduces c text ∧
      l = String.ofList (blanks (4 * level)) ++ text := by
  obtain ⟨hs, hp⟩ := h.known (F := True) (H := True) (fun _ _ hc _ => hc.2) fun _ _ hc _ => hc.1
  -- finding the entry keeps what is known
  obtain ⟨hplans, hfound⟩ := (runs_entryFile (B := False) (E := False) (S := fun _ => True) False.elim
    trivial False.elim False.elim False.elim).of_ok hs hentry
  have hworks : Reach (Works Kind.Fresh True True) ws ws₁ := hplans.mono fun _ _ => .plan
  have hs₁ := hworks.sound hs
  have hp₁ := hworks.primed_works hs hp
  have hmade₁ : ws₁.Made := hworks.invariant (I := Workspace.Made) hs (h.made fun _ _ hc => hc.2)
    fun _ _ _ legal hc hm => hm.apply legal (hc.faithful trivial)
  have huntouched₁ : ws₁.Untouched := hworks.invariant (I := Workspace.Untouched) hs h.untouched_of_sourced
    fun _ _ hs legal hc hu => hc.untouched (fun _ hk => hk) hs legal hu
  have hstarts₁ : Build.Starts True ws₁ := ⟨hs₁, ⟨⟨hp₁.plain, fun _ => hloaded⟩, hp₁.tidy⟩, hhome⟩
  rw [compile_eq, bind_of_ok hentry] at hok
  obtain ⟨start, path, hheader, hmark, hfresh, hreferenced⟩ := exists_of_translate hs₁ hloaded hok
  have h₀ : Build.Starts True start := hstarts₁.reach hmark
  have hentry := hmark.lt hfound.1
  have hgstart := hfresh g hg
  have hreach := ((runs_header h₀.primed hentry).of_ok h₀.sound hheader).1.mono
    (Emits.mono fun _ => False.elim)
  refine (requested_of_header h₀ hentry hheader hgstart.isFile hgstart.not_decided hmade).exists_line
    h₀ (hmark.made hs₁ hmade₁) (hmark.untouched hs₁ huntouched₁) hreach hgstart (fun a ha => ?_) hc
  rcases ha with ha | ha | ⟨f, x, hin, hf, hx⟩
  · exact .inl (hreferenced a (.inl ha))
  · exact .inl (hreferenced a (.inr ha))
  · exact .inr ⟨f, x, hin, hfresh f hf, hx⟩

/-- A function inside a function inside a namespace, used in a file whose header includes it and is included
by it. The function around it is used by the entry; what nothing uses is left out. -/
theorem History.used_declared_nested :
    let disk : Disk := ⟨[(["p"], .directory),
      (["p", "a.light"], .file (.text "namespace n\n function h\n  call b.y\n  function k\nfunction dead\n")),
      (["p", "b.light"], .file (.text "function y\n call a.n.h.k\n")),
      (["p", "f.light"], .file (.text "function main\n call a.n.h\n"))], ⟨"/"⟩⟩
    let settings : Settings := { outputDir := ⟨"/o"⟩, omitUnreferenced := true }
    let ws := Call.play [.openProject settings "p" ⟨"/p"⟩, .load 0, .load 1, .load 2, .load 3]
      (Workspace.new settings disk [.light, .cpp])
    let ws' := (Build.compile settings ⟨"/p/f.light"⟩).after ws
    History SourcedCall ws ∧ (Build.compile settings ⟨"/p/f.light"⟩).succeeds ws = true ∧
      ws'.text 1 = "#include \"/o/b.hpp\"\nvoid k() \x7b\n\x7d\nnamespace n \x7b\n    void h() \x7b\n" ++
        "        y();\n    \x7d\n\x7d\n" ∧
      ∃ l ∈ pieces '\n' (ws'.text 1), ∃ level text, ws'.Introduces 7 text ∧
        l = String.ofList (blanks (4 * level)) ++ text := by
  intro disk settings ws ws'
  have hhistory : History SourcedCall ws := .play (by decide +kernel)
  set ws₁ := (Build.entryFile settings ⟨"/p/f.light"⟩).after ws with hws₁
  obtain ⟨⟨hfound, hloaded, hhome, hfiles⟩, ⟨hsucceeds, hmade, hfirst⟩,
      ⟨hspace, hfunction, hinner, h4, h5, h7⟩, ⟨h11, h12, hno11, hno12, hmentions, hleads⟩, htext⟩ :
      ((Build.entryFile settings ⟨"/p/f.light"⟩).succeeds ws = true ∧ ws₁.Loaded ∧ ws₁.ForwardsHome ∧
        ∀ f ∈ [1, 3], ∃ file ∈ (ws₁.component f).file?,
          file.language? = some .light ∧ file.output? = none ∧ file.settled = false) ∧
      ((Build.compile settings ⟨"/p/f.light"⟩).succeeds ws = true ∧ (ws'.output? 1).isSome = true ∧
        [Event.begun 3, .begun 1].Sublist ws'.journal) ∧
      (ws'.kind 4 = .space ∧ ws'.kind 5 = .function {} ∧ ws'.kind 7 = .function {} ∧
        4 ∈ (ws'.component 1).childIds ∧ 5 ∈ (ws'.component 4).childIds ∧ 7 ∈ (ws'.component 5).childIds) ∧
      (11 ∈ (ws'.component 3).childIds ∧ 12 ∈ (ws'.component 11).childIds ∧ ws'.isFile 11 = false ∧
        ws'.isFile 12 = false ∧ .callee "a.n.h" ∈ ws'.mentions 12 ∧
        ws'.targetAt? 12 "a.n.h" = some (.component 5)) ∧
      ws'.text 1 = "#include \"/o/b.hpp\"\nvoid k() \x7b\n\x7d\nnamespace n \x7b\n    void h() \x7b\n" ++
        "        y();\n    \x7d\n\x7d\n" := by decide +kernel
  obtain ⟨found, hentry⟩ := ok_of_succeeds hfound
  obtain ⟨result, hok⟩ := ok_of_succeeds hsucceeds
  refine ⟨hhistory, hsucceeds, htext,
    hhistory.used_declared hentry hloaded hhome hok (hfiles 1 (by simp)) hmade ?_⟩
  -- the function around it is used by the entry, whose header is begun first
  refine .own (.function (.space .file h4 hspace) h5 hfunction (.inr (.inr (.inr ?_)))) h7
    (by rw [hinner]; rfl) (.inl ⟨_, hfunction⟩)
  exact ⟨3, 12, .inr (.inr hfirst), hfiles 3 (by simp), .deeper (.child h11 hno11) h12 hno12, _, hmentions,
    rfl, hleads⟩

/-- What is used and not declared: the type of a member; a function in a header that is finished when the
one that uses it is begun; and a function inside a function that nothing uses. -/
theorem used_declared_missing :
    let settings : Settings := { outputDir := ⟨"/o"⟩, omitUnreferenced := true }
    let after := fun (sources : List (Location × Entry)) =>
      match Build.compile settings ⟨"/p/f.light"⟩
        (Workspace.new settings ⟨(["p"], .directory) :: sources, ⟨"/"⟩⟩ [.light, .cpp]) with
      | .ok _ ws => some ws
      | .error _ _ => none
    let typed := after [(["p", "f.light"], .file (.text "function main\n declare x : v\ndeclare v : int\n"))]
    let ordered := after [(["p", "a.light"], .file (.text "function x\nfunction z\n")),
      (["p", "b.light"], .file (.text "function y\n call a.z\n")),
      (["p", "f.light"], .file (.text "function main\n call a.x\n call b.y\n"))]
    let nested := after
      [(["p", "f.light"], .file (.text "function main\n call outer.inner\nfunction outer\n function inner\n"))]
    (typed.map fun ws => (ws.targetAt? 3 "v", ws.text 1))
        = some (some (.component 4), "void main() \x7b\n    v x;\n\x7d\n") ∧
      (ordered.map fun ws => (ws.targetAt? 10 "a.z", ws.fileOf? 8, ws.text 1))
        = some (some (.component 8), some 1, "void x() \x7b\n\x7d\n") ∧
      (nested.map fun ws => (ws.targetAt? 3 "outer.inner", ws.text 1))
        = some (some (.component 5), "void main() \x7b\n    inner();\n\x7d\n") := by
  decide +kernel

end LightHeaders
