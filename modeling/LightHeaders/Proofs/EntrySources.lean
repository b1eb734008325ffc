import LightHeaders.Proofs.OutputPaths
import LightHeaders.Proofs.Sessions

set_option autoImplicit false

/-! # The source that an entry is compiled from

An entry is known in its project by a dotted name, and the file that is translated is the one that this
name leads to. Where no step of an entry has a dot in it, in no call of a session, that is the file of
the entry itself, or of a C++ header beside it with the same stem
(`Continues.compile_source`).
-/

namespace LightHeaders

open Build

/-- In a plain session no project is registered for a file and no entry has a dot in a step from the root
of its project down. Nothing is said of how the disk changes between calls, but that it stays a disk. -/
def PlainCall (ws : Workspace) : Call → Prop
  | .setDisk d => d.Named ∧ d.current.isAbsolute = true
  | .openProject _ _ root => ∀ q ∈ Path.absolute? ws.disk.current root, ws.disk.isFile q = false
  | .compile _ entry => ∀ e ∈ Path.absolute? ws.disk.current entry, ws.PlainEntry e
  | _ => False

variable {ws : Workspace}

theorem PlainCall.inSession {c : Call} (h : PlainCall ws c) : c.InSession True True (fun _ => True) ws := by
  cases c with
  | setDisk d => exact ⟨fun _ => h.2, fun _ => h.1⟩
  | openProject | compile => exact ⟨trivial, fun _ => h⟩
  | _ => exact h.elim

theorem PlainCall.filed {c : Call} (h : PlainCall ws c) : c.Filed := by
  cases c with
  | addRoot | addComponent => exact h.elim
  | _ => exact trivial

theorem Language.eq_of_ofExtension?_light {ext : String} (h : ofExtension? ext = some .light) :
    ext = lightSuffix := by
  unfold ofExtension? at h
  split at h
  · rfl
  · cases h
  · cases h
  · cases h

/-- A file in the place of an entry that was read is the entry, or a C++ header beside it. -/
theorem SourceFile.At.path_eq {f : SourceFile} {dir : Path} {name : String} (h : f.At dir name)
    (hname : Path.IsPlain name) {l : Language} (hl : Language.ofPath? f.path = some l) :
    (l = .light ∧ f.path = dir.join ⟨name ++ "." ++ Language.lightSuffix⟩) ∨
      (l = .cpp ∧ f.path.withExtension "" = dir.join ⟨name⟩) := by
  rcases h with hpath | ⟨-, ext, l', hext, hpath⟩
  · -- a name without a dot has no extension
    rw [Language.ofPath?, hpath, (Path.withExtension_join_bare dir hname.1 hname.2).1] at hl
    cases hl
  · obtain ⟨hne, hslash, hdot⟩ := Language.ofExtension?_eq_some hext
    obtain ⟨-, hstem, hnotDot, -⟩ := Path.isName_iff.mp hname.1
    have hsolid := Path.slash_not_mem_append hname.1.1 hslash
    rw [Language.ofPath?, hpath, Path.extension?_join dir hstem hne hsolid hdot, Option.bind_some,
      hext] at hl
    cases hl
    rw [hpath]
    cases l with
    | light => exact .inl ⟨rfl, by rw [Language.eq_of_ofExtension?_light hext]⟩
    | cpp => exact .inr ⟨rfl, by rw [Path.withExtension_join dir hstem hne hsolid hdot, if_neg hnotDot]⟩

/-- **Compiling translates the entry it is given**, in a plain session: where it succeeds, the file that
was loaded and whose header was made is the one of the entry, whatever was registered, found or written
before and however the disk changed. The only other file it can be is a C++ header with the same
stem. -/
theorem Continues.compile_source {settings settings' : Settings} {disk : Disk} {readers : List Language}
    {ws ws' : Workspace} {entry : Path} {result : Compiled} (hnamed : disk.Named)
    (hcurrent : disk.current.isAbsolute = true)
    (h : Continues PlainCall (Workspace.new settings disk readers) ws)
    (hplain : PlainCall ws (.compile settings' entry))
    (hok : Build.compile settings' entry ws = .ok result ws') :
    ∃ e file ws₁ f, Path.absolute? ws.disk.current entry = some e ∧
      Build.entryFile settings' entry ws = .ok (result.project, file) ws₁ ∧
      Build.translate result.project file ws₁ = .ok result ws' ∧
      (ws'.component file).file? = some f ∧
      (f.language? = some .light ∧ f.path = e ∨
        f.language? = some .cpp ∧ f.path.withExtension "" = e.withExtension "") := by
  have hs₀ := Workspace.sound_new settings disk readers
  have hp₀ := Workspace.primed_new False False settings disk readers
  have hmapped₀ : (Workspace.new settings disk readers).Mapped True True fun _ => True :=
    Workspace.mapped_new readers (fun _ => hcurrent) fun _ => hnamed
  have hreach := h.serves (F := False) (H := False) (fun _ _ hc => hc.inSession) id hs₀ hp₀ hmapped₀
  have hs := hreach.sound hs₀
  have hp := hreach.primed_serves hs₀ hp₀
  have hmapped := hreach.mapped hs₀ hmapped₀
  rw [compile_eq] at hok
  obtain ⟨⟨project, file⟩, ws₁, hfound, htranslate⟩ := exists_of_bind_eq_ok hok
  obtain ⟨hreach₁, hlt, e, he, hentry⟩ := (serves_entryFile (F := False) (H := False) id hmapped trivial
    fun _ => hplain).of_ok hs hfound
  have hs₁ := hreach₁.sound hs
  obtain ⟨hreach₂, hproject, hdecided⟩ :=
    (runs_translate (hreach₁.primed_serves hs hp) project hlt).of_ok hs₁ htranslate
  -- the history goes on with the call, so what is known of outputs is known behind it
  have hafter : (Call.compile settings' entry).run.after ws = ws' :=
    after_discard ((congrFun (compile_eq settings' entry) ws).trans hok)
  have houtputs : ws'.Outputs := by
    refine History.outputs (A := PlainCall) ⟨settings, disk, readers, h.tail ?_⟩ fun _ _ hc => hc.filed
    exact ⟨.compile settings' entry, trivial, hplain, hafter.symm⟩
  obtain ⟨p, hp'⟩ := Option.isSome_iff_exists.mp hdecided
  obtain ⟨f, hf, hfp⟩ := Option.bind_eq_some_iff.mp hp'
  obtain ⟨l, hl⟩ := houtputs.known file f p hf hfp
  obtain ⟨parent, dir, hparent, hstands, hname, rfl⟩ := hentry trivial
  -- the file was in the place of the entry when it was found, and its path stays
  obtain ⟨g, hg, hpath, hdirectory⟩ := file?_of_spot (hreach₂.spot_eq hs₁ hlt).symm hf
  have hat := (hreach₁.mapped hs hmapped).placed trivial file g parent dir hg hparent hstands hname
  have hplace := hat.path_eq hname (hpath ▸ houtputs.language file f l hf hl)
  obtain ⟨-, hstem, hnotDot, -⟩ := Path.isName_iff.mp hname.1
  have hsolid := Path.slash_not_mem_append hname.1.1 (show '/' ∉ Language.lightSuffix.toList by decide)
  have hentryStem := Path.withExtension_join dir hstem (show Language.lightSuffix ≠ "" by decide) hsolid
    (show '.' ∉ Language.lightSuffix.toList by decide)
  rw [if_neg hnotDot] at hentryStem
  cases hproject
  refine ⟨_, file, ws₁, f, he, hfound, htranslate, hf, ?_⟩
  rw [hl, hentryStem, ← hpath]
  rcases hplace with ⟨rfl, hlight⟩ | ⟨rfl, hcpp⟩
  · exact .inl ⟨rfl, hlight⟩
  · exact .inr ⟨rfl, hcpp⟩

/-- A source that came after its project was registered, below one that was there, by a path that is not
in normal form. -/
theorem Continues.compile_source_late :
    let disk : Disk := ⟨[(["p"], .directory), (["p", "a.light"], .file (.text "function f\n")),
      (["p", "a"], .directory), (["p", "a", "b.light"], .file (.text "function g\n"))], ⟨"/"⟩⟩
    let later : Disk := ⟨disk.entries ++ [(["p", "a", "c"], .directory),
      (["p", "a", "c", "d.light"], .file (.text "function h\n"))], ⟨"/p"⟩⟩
    let settings : Settings := { outputDir := ⟨"/o"⟩ }
    let ws := Call.play [.openProject settings "p" ⟨"p"⟩, .compile settings ⟨"p/a/b.light"⟩, .setDisk later]
      (Workspace.new settings disk [.light, .cpp])
    disk.Named ∧ Continues PlainCall (Workspace.new settings disk [.light, .cpp]) ws ∧
      PlainCall ws (.compile settings ⟨"x/../a/c/d.light"⟩) ∧
      ∃ result ws' file f, Build.compile settings ⟨"x/../a/c/d.light"⟩ ws = .ok result ws' ∧
        (ws'.component file).file? = some f ∧
        (f.language? = some .light ∧ f.path = ⟨"/p/a/c/d.light"⟩ ∨ f.language? = some .cpp ∧
          f.path.withExtension "" = (⟨"/p/a/c/d.light"⟩ : Path).withExtension "") := by
  intro disk later settings ws
  have hnamed : disk.Named := by decide
  have hopen : ∀ q ∈ Path.absolute? disk.current ⟨"p"⟩, disk.isFile q = false := by decide
  have hfirst : ∀ e ∈ Path.absolute? ((Call.openProject settings "p" ⟨"p"⟩).run.after
      (Workspace.new settings disk [.light, .cpp])).disk.current ⟨"p/a/b.light"⟩,
      ((Call.openProject settings "p" ⟨"p"⟩).run.after
        (Workspace.new settings disk [.light, .cpp])).PlainEntry e := by decide +kernel
  have hlater : later.Named ∧ later.current.isAbsolute = true := by decide
  have hcontinues : Continues PlainCall (Workspace.new settings disk [.light, .cpp]) ws :=
    Continues.play ⟨⟨trivial, hopen⟩, ⟨trivial, hfirst⟩, ⟨trivial, hlater⟩, trivial⟩
  obtain ⟨hentry, he, hsucceeds⟩ :
      (∀ e ∈ Path.absolute? ws.disk.current ⟨"x/../a/c/d.light"⟩, ws.PlainEntry e) ∧
      Path.absolute? ws.disk.current ⟨"x/../a/c/d.light"⟩ = some ⟨"/p/a/c/d.light"⟩ ∧
      (Build.compile settings ⟨"x/../a/c/d.light"⟩).succeeds ws = true := by decide +kernel
  obtain ⟨result, hok⟩ := ok_of_succeeds hsucceeds
  obtain ⟨e, file, -, f, he', -, -, hf, hpath⟩ :=
    Continues.compile_source hnamed (by decide) hcontinues hentry hok
  rw [he] at he'
  cases he'
  exact ⟨hnamed, hcontinues, hentry, result, _, file, f, hok, hf, hpath⟩

/-- A dot in the name of an entry: the name comes apart, and leads to another source. -/
theorem compile_source_dotted :
    let disk : Disk := ⟨[(["p"], .directory), (["p", "a.b.light"], .file (.text "function outer\n")),
      (["p", "a"], .directory), (["p", "a", "b.light"], .file (.text "function inner\n"))], ⟨"/"⟩⟩
    let settings : Settings := { outputDir := ⟨"/o"⟩ }
    let ws := Call.play [.openProject settings "p" ⟨"/p"⟩] (Workspace.new settings disk [.light, .cpp])
    (match Build.entryFile settings ⟨"/p/a.b.light"⟩ ws with
      | .ok found ws₁ => (ws₁.component found.2).file?.map SourceFile.path
      | .error _ _ => none) = some ⟨"/p/a/b.light"⟩ ∧
    (match Build.compile settings ⟨"/p/a.b.light"⟩ ws with
      | .ok result _ => some result
      | .error _ _ => none) = some ⟨0, "/o/a_b.hpp", "void inner() \x7b\n\x7d\n"⟩ := by
  decide +kernel

end LightHeaders
