import LightHeaders.Proofs.HeaderText
import LightHeaders.Proofs.Origins
import LightHeaders.Proofs.OwnLines

set_option autoImplicit false

/-! # The numbers of lines

While a header is written, its file counts the lines, and the instruction of each component takes down
the number of the line that the component starts on. The text is put together later, out of order: what
is lifted comes before what stands in the file, and other headers can be written in between. Still the
number is that of the component's own line in the text (`History.line_numbers`).

That needs components that were made from instructions, no two from one, and lines without a line feed
in them. A library that is given from outside can have one in its name.
-/

namespace LightHeaders

open Text Workspace Build

/-! ## The lines of a text -/

namespace HeaderLine

theorem toList_joined_cons (l : HeaderLine) (lines : List HeaderLine) :
    (joined (l :: lines)).toList = l.text.toList ++ '\n' :: (joined lines).toList := by
  simp [joined]

variable {lines : List HeaderLine}

theorem pieces_joined (h : ∀ l ∈ lines, OneLine l.text) :
    pieces '\n' (joined lines) = lines.map text ++ [""] := by
  induction lines with
  | nil => rfl
  | cons l lines ih =>
    have hrest := ih fun other hother => h other (.tail _ hother)
    rw [pieces, toList_joined_cons, splitAt_append_cons (h l (.head _)), List.map_cons,
      String.ofList_toList]
    exact congrArg (l.text :: ·) hrest

theorem count_joined (h : ∀ l ∈ lines, OneLine l.text) : (joined lines).toList.count '\n' = lines.length := by
  induction lines with
  | nil => rfl
  | cons l lines ih =>
    have hrest := ih fun other hother => h other (.tail _ hother)
    have hown : l.text.toList.count '\n' = 0 := List.count_eq_zero.mpr (h l (.head _))
    rw [toList_joined_cons, List.count_append, List.count_cons_self, hown, hrest, List.length_cons]
    omega

end HeaderLine

namespace Workspace

variable {ws : Workspace} {f : ComponentId}

/-! ## The lines of a header -/

theorem oneLine_lineAt {level : Nat} {owner? : Option ComponentId} {text : String}
    (h : OneLine text) : OneLine (lineAt level owner? text).text := by
  refine OneLine.append (oneLine_ofList fun hmem => ?_) h
  exact absurd (List.eq_of_mem_replicate hmem) (by decide)

variable {x : ComponentId} {l : HeaderLine} {i : InstructionId} {body : List HeaderLine}

/-- A line of the body of a file is the line of something that is rendered into it, or the end of a
body. -/
theorem Sound.exists_rendered_of_mem_bodyLines (hs : ws.Sound) (hf : ws.isFile f = true)
    (h : ws.bodyLines f = some body) (hl : l ∈ body) :
    (∃ n, l = lineAt n none "\x7d") ∨ ∃ x, ws.Rendered f x ∧ ws.ownLine? x = some l := by
  obtain ⟨lifted, hlifted, h⟩ := Option.bind_eq_some_iff.mp h
  obtain ⟨own, hown, h⟩ := Option.bind_eq_some_iff.mp h
  cases h
  rcases List.mem_append.mp hl with hl | hl
  · obtain ⟨y, hy, lines, hlines, hl⟩ := exists_of_mem_printAll hlifted hl
    refine (ownLine?_of_mem_printWithin hs (hs.fileOf?_of_mem_lifted hy).1
      (hs.depthInFile_of_forward (hs.mem_lifted_iff.mp hy).2) hlines hl).imp_right ?_
    rintro ⟨x, hx⟩
    exact ⟨x, .inl ⟨y, hy, inline_of_mem_printWithin hlines hl (owner?_of_ownLine? hx)⟩, hx⟩
  · obtain ⟨y, hy, lines, hlines, hl⟩ := exists_of_mem_printAll hown hl
    have hlevel : ws.depthInFile y = 0 := by
      rw [hs.depthInFile_child (mem_childIds_of_mem_inlineChildren hy), hf, Bool.or_true, if_pos rfl]
    refine (ownLine?_of_mem_printWithin hs (isFile_of_mem_inlineChildren hy) hlevel hlines hl).imp_right ?_
    rintro ⟨x, hx⟩
    rw [← bodyOf_of_isFile hf] at hy
    exact ⟨x, .inr ⟨y, hy, inline_of_mem_printWithin hlines hl (owner?_of_ownLine? hx)⟩, hx⟩

theorem Sound.exists_line_of_rendered (hs : ws.Sound) (hf : ws.isFile f = true)
    (h : ws.bodyLines f = some body) (hx : ws.Rendered f x) (hi : (ws.component x).instruction? = some i) :
    ∃ l ∈ body, l.owner? = some x := by
  obtain ⟨lifted, hlifted, h⟩ := Option.bind_eq_some_iff.mp h
  obtain ⟨own, hown, h⟩ := Option.bind_eq_some_iff.mp h
  cases h
  rcases hx with ⟨y, hy, hinline⟩ | ⟨y, hy, hinline⟩
  · obtain ⟨lines, hlines, hsub⟩ := subset_of_mem_printAll hlifted hy
    have hlt : y < ws.size := by
      obtain ⟨-, hfile⟩ := hs.fileOf?_of_mem_lifted hy
      rw [hs.fileOf?_self hf] at hfile
      exact hs.lt_size_of_fileOf? hfile
    obtain ⟨l, hl, howner⟩ := hs.exists_line_of_inline hlt hlines hinline hi
    exact ⟨l, List.mem_append_left _ (hsub hl), howner⟩
  · rw [bodyOf_of_isFile hf] at hy
    obtain ⟨lines, hlines, hsub⟩ := subset_of_mem_printAll hown hy
    have hlt := (hs.of_mem_childIds (mem_childIds_of_mem_inlineChildren hy)).1
    obtain ⟨l, hl, howner⟩ := hs.exists_line_of_inline hlt hlines hinline hi
    exact ⟨l, List.mem_append_right _ (hsub hl), howner⟩

theorem Sound.exists_ownLine_of_rendered (hs : ws.Sound) (hf : ws.isFile f = true)
    (h : ws.bodyLines f = some body) (hx : ws.Rendered f x) (hi : (ws.component x).instruction? = some i) :
    ∃ l ∈ body, ws.ownLine? x = some l := by
  obtain ⟨l, hl, howner⟩ := hs.exists_line_of_rendered hf h hx hi
  refine ⟨l, hl, ?_⟩
  -- a line with an owner is the line of its owner
  rcases hs.exists_rendered_of_mem_bodyLines hf h hl with ⟨level, rfl⟩ | ⟨y, -, hy⟩
  · cases howner
  · rw [owner?_of_ownLine? hy] at howner
    cases howner
    exact hy

/-- The line that the instruction of a component remembers. -/
def lineOf? (ws : Workspace) (x : ComponentId) : Option Nat :=
  (ws.component x).instruction?.bind ws.line?

namespace Printed

variable {file : SourceFile} {paths : List String} {lines : List HeaderLine}

/-- **No line of a header has a line feed in it**, in a plain workspace. -/
theorem oneLine (h : ws.Printed f file paths lines) (hs : ws.Sound) (hp : ws.Plain) (hf : ws.isFile f = true)
    (hlibraries : ∀ library ∈ file.libraries, OneLine library) :
    ∀ l ∈ lines, OneLine l.text := by
  intro l hl
  obtain ⟨body, hbody, rfl⟩ := Option.map_eq_some_iff.mp h.printed
  rcases List.mem_append.mp hl with hl | hl
  · rcases List.mem_append.mp hl with hl | hl
    · obtain ⟨library, hlibrary, rfl⟩ := List.mem_map.mp hl
      exact (OneLine.append (by decide) (hlibraries library hlibrary)).append (by decide)
    · obtain ⟨path, -, rfl⟩ := List.mem_map.mp hl
      exact (OneLine.append (by decide) (Literal.oneLine_escape path)).append (by decide)
  · rcases hs.exists_rendered_of_mem_bodyLines hf hbody hl with ⟨n, rfl⟩ | ⟨x, -, hx⟩
    · exact oneLine_lineAt (by decide)
    · obtain ⟨text, htext, rfl⟩ := Option.map_eq_some_iff.mp hx
      exact oneLine_lineAt (hp.oneLine_ownText hs htext)

/-- **Each component that is rendered remembers the number of its own line.** -/
theorem exists_numbered (h : ws.Printed f file paths lines) (hs : ws.Sound) (hm : ws.Made)
    (hhome : ws.ForwardsHome) (hf : ws.isFile f = true) (hx : ws.Rendered f x) :
    ∃ n l, ws.lineOf? x = some (n + 1) ∧ ws.ownLine? x = some l ∧ lines[n]? = some l := by
  obtain ⟨hne, hfile⟩ := inside_of_rendered hs hhome hf hx
  have hno : ws.isFile x = false := by
    cases hisFile : ws.isFile x with
    | false => rfl
    | true =>
      rw [hs.fileOf?_self hisFile] at hfile
      exact absurd (Option.some.inj hfile) hne
  obtain ⟨i, hi⟩ := Option.isSome_iff_exists.mp (hm.source x (hs.lt_size_of_fileOf? hfile) hno)
  obtain ⟨body, hbody, hlines⟩ := Option.map_eq_some_iff.mp h.printed
  obtain ⟨l, hl, hown⟩ := hs.exists_ownLine_of_rendered hf hbody hx hi
  have hmem : l ∈ lines := by
    rw [← hlines]
    exact List.mem_append_right _ hl
  obtain ⟨n, hn⟩ := List.mem_iff_getElem?.mp hmem
  refine ⟨n, l, ?_, hown, hn⟩
  rw [lineOf?, hi, Option.bind_some, h.stamped hm.apart n l x i hn (owner?_of_ownLine? hown) hi,
    Nat.add_comm]

end Printed

end Workspace

/-! ## Numbers in histories -/

variable {ws ws' : Workspace} {f : ComponentId} {file : SourceFile}

/-- In a plain workspace, no line of a header that is made has a line feed in it. -/
theorem Build.Awaits.oneLine {linked : Workspace} {file' : SourceFile} {output : Path} {paths : List String}
    {lines : List HeaderLine} (h : Build.Awaits True ws f file)
    (hprepared : Build.prepare f file.path ws = .ok output linked)
    (hfile' : (linked.component f).file? = some file') (hprinted : ws'.Printed f file' paths lines)
    (hreach : Reach (Emits True True True ws.Decided) ws ws') : ∀ l ∈ lines, OneLine l.text := by
  -- what is known before the request is known when the names are resolved, and at its end
  have hlinked := (h.toStarts.reach (h.reach_of_prepare hprepared)).primed.plain trivial
  have hstarts := h.toStarts.reach hreach
  have hf' : ws'.isFile f = true := by rw [hreach.extension.isFile (lt_size_of_isFile h.isFile), h.isFile]
  exact hprinted.oneLine hstarts.sound (hstarts.primed.plain trivial) hf' (hlinked.library f file' hfile')

/-- **The number of a line is where the text stands.** In a history in which components came from files
only, nothing with a line feed was given from outside, all writing was asked for by way of headers and
text was forwarded to files only, with all files loaded and text forwarded to the file around a
component only, let the header of a source be asked for the first time. If that succeeds, then each
component that is rendered into it remembers the number of its own line in the text, no two remember
the same number, and the file has counted the lines of the text. -/
theorem History.line_numbers {ws ws' : Workspace} {f : ComponentId} {file : SourceFile} {path : String}
    (h : History SourcedCall ws) (hloaded : ws.Loaded) (hhome : ws.ForwardsHome)
    (hfile : (ws.component f).file? = some file) (hlight : file.language? = some .light)
    (hnew : file.output? = none) (hheader : Build.header f ws = .ok path ws') :
    (∀ x, ws'.Rendered f x → ∃ n l, ws'.lineOf? x = some (n + 1) ∧ ws'.ownLine? x = some l ∧
      (pieces '\n' (ws'.text f))[n]? = some l.text) ∧
    (∀ x y, ws'.Rendered f x → ws'.Rendered f y → ws'.lineOf? x = ws'.lineOf? y → x = y) ∧
    ws'.nextLine f = 1 + (ws'.text f).toList.count '\n' ∧
    ∃ output, path = (ws.spellingOf f).spell output ∧
      ws'.disk.readText output = .ok (ws'.text f) := by
  have hawaits : Build.Awaits True ws f file :=
    ⟨h.starts (fun _ _ hc _ => hc.2) (fun _ _ hc => hc.1) hloaded hhome, hfile, hlight, hnew⟩
  obtain ⟨-, -, hreach, output, linked, file', paths, lines, hpath, hprepared, hfile', hprinted, -, hread⟩ :=
    hawaits.exists_firstHeader hheader
  have hone := hawaits.oneLine hprepared hfile' hprinted hreach
  have hs := hawaits.sound
  have hs' := hreach.sound hs
  have hf' : ws'.isFile f = true := by
    rw [hreach.extension.isFile (lt_size_of_isFile hawaits.isFile), hawaits.isFile]
  have hnumbered := fun x (hx : ws'.Rendered f x) => hprinted.exists_numbered hs'
    (hreach.made hs (h.made fun _ _ hc => hc.2)) (hreach.forwardsHome hs trivial hhome) hf' hx
  refine ⟨fun x hx => ?_, fun x y hx hy hsame => ?_, ?_, output, hpath, ?_⟩
  · obtain ⟨n, l, hline, hown, hl⟩ := hnumbered x hx
    refine ⟨n, l, hline, hown, ?_⟩
    have hlen : n < (lines.map HeaderLine.text).length := by
      rw [List.length_map]
      exact (List.getElem?_eq_some_iff.mp hl).1
    rw [hprinted.text, HeaderLine.pieces_joined hone, List.getElem?_append_left hlen,
      List.getElem?_map, hl, Option.map_some]
  · obtain ⟨n, l, hline, hown, hl⟩ := hnumbered x hx
    obtain ⟨m, k, hline', hown', hk⟩ := hnumbered y hy
    rw [hline, hline'] at hsame
    obtain rfl : n = m := by simpa using hsame
    rw [hl] at hk
    cases hk
    have howner := (owner?_of_ownLine? hown).symm.trans (owner?_of_ownLine? hown')
    exact Option.some.inj howner
  · rw [hprinted.nextLine, hprinted.text, HeaderLine.count_joined hone]
  · rw [hprinted.text]
    exact hread

/-- Two sources that include each other: the function inside a function is lifted to the third line. -/
theorem History.line_numbers_mutual :
    let f := "function x\n function y\n  call __c_io_p\n call g.z\n"
    let disk : Disk := ⟨[(["f.light"], .file (.text f)),
      (["g.light"], .file (.text "function z\n call f.x\n"))], ⟨"/"⟩⟩
    let ws := Call.play [.registerProject "p" ⟨"/"⟩ ⟨"/o"⟩ .plain, .load 0, .load 1, .load 2]
      (Workspace.new {} disk [.light, .cpp])
    let ws' := (Build.header 1).after ws
    History SourcedCall ws ∧ ws.Loaded ∧ ws.ForwardsHome ∧ ws'.Rendered 1 4 ∧
      ws'.lineOf? 4 = some 3 ∧ (ws'.ownLine? 4).map HeaderLine.text = some "void y() \x7b" ∧
      (∃ n l, ws'.lineOf? 4 = some (n + 1) ∧ ws'.ownLine? 4 = some l ∧
        (pieces '\n' (ws'.text 1))[n]? = some l.text) ∧
      ws'.nextLine 1 = 9 ∧ ws'.nextLine 1 = 1 + (ws'.text 1).toList.count '\n' := by
  intro f disk ws ws'
  have hhistory : History SourcedCall ws := .play (by decide +kernel)
  obtain ⟨hloaded, hhome, hok, ⟨file, hfile, hlight, hnew⟩, hlifted, hline, hown, hnext⟩ :
      ws.Loaded ∧ ws.ForwardsHome ∧ (Build.header 1).succeeds ws = true ∧
      (∃ file ∈ (ws.component 1).file?, file.language? = some .light ∧ file.output? = none) ∧
      4 ∈ ws'.lifted 1 ∧ ws'.lineOf? 4 = some 3 ∧
      (ws'.ownLine? 4).map HeaderLine.text = some "void y() \x7b" ∧ ws'.nextLine 1 = 9 := by
    decide +kernel
  obtain ⟨path, hheader⟩ : ∃ path, Build.header 1 ws = .ok path ws' := ok_of_succeeds hok
  clear_value ws' ws
  have hrendered : ws'.Rendered 1 4 := .inl ⟨4, hlifted, .refl⟩
  obtain ⟨hnumbered, -, hcount, -⟩ :=
    hhistory.line_numbers hloaded hhome hfile hlight hnew hheader
  exact ⟨hhistory, hloaded, hhome, hrendered, hline, hown, hnumbered 4 hrendered, hnext, hcount⟩

/-- Text that was forwarded to another component before it was forwarded to its file stands in the header
of the other file, where nothing has counted its lines. -/
theorem line_numbers_forwarded_elsewhere :
    let disk : Disk := ⟨[(["f.light"], .file (.text "function x\n")),
      (["g.light"], .file (.text "function y\n"))], ⟨"/"⟩⟩
    let ws := Call.play [.registerProject "p" ⟨"/"⟩ ⟨"/o"⟩ .plain, .load 0, .load 1, .load 2,
      .forward 3 4, .header 1, .forward 3 1] (Workspace.new {} disk [.light, .cpp])
    let ws' := (Build.header 2).after ws
    History (fun ws c => c.Sourced ∧ (c.Driven ws ∨ ∃ id target, c = .forward id target)) ws ∧
      ws.Loaded ∧ ws.ForwardsHome ∧ ws.output? 2 = none ∧ ws'.output? 2 = some ⟨"/o/g.hpp"⟩ ∧
      4 ∈ ws'.bodyOf 2 ∧ ws'.lineOf? 4 = some 1 ∧
      (ws'.ownLine? 4).map HeaderLine.text = some "void y() \x7b" ∧
      pieces '\n' (ws'.text 2) = ["void x() \x7b", "\x7d", "void y() \x7b", "\x7d", ""] ∧
      ws'.nextLine 2 = 3 := by
  intro disk ws ws'
  exact ⟨.play (by decide +kernel), by decide +kernel⟩

/-- A library with a line feed in its name is counted as one line. -/
example :
    let disk : Disk := ⟨[(["f.light"], .file (.text "function x\n"))], ⟨"/"⟩⟩
    let ws := Call.play [.registerProject "p" ⟨"/"⟩ ⟨"/o"⟩ .plain, .load 0, .load 1,
      .useLibrary 1 "a\nb", .header 1] (Workspace.new {} disk [.light, .cpp])
    pieces '\n' (ws.text 1) = ["#include <a", "b>", "void x() \x7b", "\x7d", ""] ∧
      ws.lineOf? 2 = some 2 ∧ ws.nextLine 1 = 4 := by
  decide +kernel

end LightHeaders
