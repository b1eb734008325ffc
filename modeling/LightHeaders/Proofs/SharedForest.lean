import LightHeaders.Proofs.Indentation
import LightHeaders.Proofs.LinePhrases
import LightHeaders.Proofs.Renumbering

set_option autoImplicit false

/-! # Reading into a forest that holds other sources

All sources are read into one forest. What stands there stays, and a source adds the instructions that
it has in an empty forest, with all numbers counted from the size of the forest on (`nodes_parse`,
`outcome_parse`).

A source that cannot be read is read up to the first line that says something and is no phrase
(`Outline.StopsAt`). That line is the one reported, and the lines before it leave what they would leave
if the source ended with them (`Outline.StopsAt.parse_eq`).
-/

namespace LightHeaders

open Text

/-- The instruction with its children counted from `n` on. -/
def Instruction.shift (n : Nat) (i : Instruction) : Instruction :=
  { i with children := i.children.map (n + ·) }

/-- Counting from `n` on is renumbering from the very first number. -/
theorem renumber_zero (n : Nat) : renumber 0 n = (n + ·) := by
  funext k
  rw [renumber_of_le (Nat.zero_le k), Nat.sub_zero]

theorem Instruction.renumber_zero (n : Nat) (i : Instruction) : i.renumber 0 n = i.shift n := by
  rw [Instruction.renumber, LightHeaders.renumber_zero, Instruction.shift]

theorem Forest.get_eq_getElem (f : Forest) {id : InstructionId} (h : id < f.nodes.size) :
    f.get id = f.nodes[id] := by
  simp [Forest.get, h]

/-! ## The lines before one of the lines -/

namespace Text

theorem lines_cons {piece : List Char} (h : '\n' ∉ piece) (rest : List Char) :
    lines (piece ++ '\n' :: rest) = dropReturn piece :: lines rest := by
  rw [lines, splitAt_append_cons h, lines]
  cases hs : splitAt '\n' rest with
  | nil => exact absurd hs (splitAt_ne_nil _ _)
  | cons first others => rfl

theorem length_lines_of_not_mem {cs : List Char} (h : '\n' ∉ cs) : (lines cs).length ≤ 1 := by
  rw [lines, splitAt_of_not_mem h, linesOfPieces]
  split <;> simp

/-- A text can be cut before any of its lines. -/
theorem exists_front_of_lines {before after : List (List Char)} {raw cs : List Char}
    (h : lines cs = before ++ raw :: after) :
    ∃ front back, cs = front ++ back ∧ lines front = before := by
  induction before generalizing cs with
  | nil => exact ⟨[], cs, rfl, rfl⟩
  | cons l before ih =>
    have hmem : '\n' ∈ cs := by
      by_contra hnone
      have hlength := length_lines_of_not_mem hnone
      rw [h] at hlength
      simp at hlength
    obtain ⟨piece, rest, hcs, hpiece⟩ := List.eq_append_cons_of_mem hmem
    rw [hcs, lines_cons hpiece, List.cons_append] at h
    obtain ⟨hl, hrest⟩ := List.cons.inj h
    obtain ⟨front, back, rfl, hfront⟩ := ih hrest
    refine ⟨piece ++ '\n' :: front, back, by simp [hcs], ?_⟩
    rw [lines_cons hpiece, hl, hfront]

end Text

namespace Outline

/-! ## The first line that cannot be read -/

/-- The lines `before` are those before the first line of `ls` that says something and is no phrase;
`e` has its number, counted from one, and its fault. -/
def StopsAt (ls before : List (List Char)) (e : OutlineError) : Prop :=
  (∀ l ∈ spoken before, ∃ p : Line.Phrase, p.Grammatical ∧ p.text = trim l) ∧
  e.line = before.length + 1 ∧
  ∃ raw after, ls = before ++ raw :: after ∧ isSilent (trim raw) = false ∧
    (∀ p : Line.Phrase, p.Grammatical → p.text ≠ trim raw) ∧ Line.parse (trim raw) = .error e.fault

theorem readable_iff {raw : List Char} (h : isSilent (trim raw) = false) :
    (∃ i, Line.parse (trim raw) = .ok i) ↔ ∃ p : Line.Phrase, p.Grammatical ∧ p.text = trim raw := by
  have hne : trim raw ≠ [] := by
    intro hnil
    rw [hnil] at h
    cases h
  constructor
  · rintro ⟨i, hi⟩
    obtain ⟨p, hp, htext, -⟩ := (Line.parse_eq_ok_iff (trim_flush raw) hne).mp hi
    exact ⟨p, hp, htext⟩
  · rintro ⟨p, hp, htext⟩
    exact ⟨p.instruction, htext ▸ Line.parse_text hp⟩

variable {f : Forest} {before ls : List (List Char)} {e : OutlineError} {source : String}

theorem forall_readable_iff :
    (∀ l ∈ spoken ls, ∃ i, Line.parse (trim l) = .ok i) ↔
      ∀ l ∈ spoken ls, ∃ p : Line.Phrase, p.Grammatical ∧ p.text = trim l :=
  forall₂_congr fun l hl => readable_iff (by simpa using (List.mem_filter.mp hl).2)

theorem stopsAt_iff :
    StopsAt ls before e ↔ e.line = before.length + 1 ∧
      ∃ raw after, ls = before ++ raw :: after ∧ Unreadable before raw e.fault := by
  constructor
  · rintro ⟨hbefore, hline, raw, after, hls, hsilent, -, hfault⟩
    exact ⟨hline, raw, after, hls, forall_readable_iff.mpr hbefore, hsilent, hfault⟩
  · rintro ⟨hline, raw, after, hls, hstop⟩
    refine ⟨forall_readable_iff.mp hstop.before, hline, raw, after, hls, hstop.spoken, ?_, hstop.fault⟩
    intro p hp htext
    obtain ⟨i, hi⟩ := (readable_iff hstop.spoken).mpr ⟨p, hp, htext⟩
    rw [hstop.fault] at hi
    cases hi

/-- **A source is read up to the first line that is no phrase**: that line is reported, and the lines
before it are read as if the source ended with them. -/
theorem StopsAt.parse_eq (h : StopsAt (lines source.toList) before e) (f : Forest) :
    ∃ g, ReadAs (spoken before) f g ∧ parse source f = (g, .error e) ∧
      ∀ front : String, lines front.toList = before → parse front f = (g, .ok f.size) := by
  obtain ⟨hline, raw, after, hlines, hstop⟩ := stopsAt_iff.mp h
  have hparse := hstop.parse_eq hlines f
  rwa [← hline] at hparse

theorem readable_or_stopsAt (ls : List (List Char)) :
    (∀ l ∈ spoken ls, ∃ i, Line.parse (trim l) = .ok i) ∨ ∃ before e, StopsAt ls before e := by
  rcases readable_or_unreadable ls with hall | ⟨before, raw, after, fault, hls, hstop⟩
  · exact .inl hall
  · exact .inr ⟨before, ⟨before.length + 1, fault⟩, stopsAt_iff.mpr ⟨rfl, raw, after, hls, hstop⟩⟩

theorem parse_eq_error_iff :
    (parse source f).2 = .error e ↔ ∃ before, StopsAt (lines source.toList) before e := by
  constructor
  · intro herror
    rcases readable_or_stopsAt (lines source.toList) with hall | ⟨before, e', hstop⟩
    · obtain ⟨g, -, hparse⟩ := parse_of_readable f hall
      rw [hparse] at herror
      cases herror
    · obtain ⟨g, -, hparse, -⟩ := hstop.parse_eq f
      rw [hparse] at herror
      cases herror
      exact ⟨before, hstop⟩
  · rintro ⟨before, hstop⟩
    obtain ⟨g, -, hparse, -⟩ := hstop.parse_eq f
    rw [hparse]

/-! ## Reading behind other sources -/

/-- **A source adds the instructions that it has in an empty forest**, counted from the size of the
forest on. -/
theorem nodes_parse (source : String) (f : Forest) : (parse source f).1.nodes =
    f.nodes ++ (parse source {}).1.nodes.map (Instruction.shift f.size) := by
  obtain ⟨hcopied, -⟩ := copied_parse source {} f
  obtain ⟨k, hempty, hsize⟩ := hcopied.size
  have hzero : ({} : Forest).size = 0 := rfl
  rw [hzero, Nat.zero_add] at hempty
  rw [hzero] at hcopied
  refine Array.ext ?_ fun id hid hid' => ?_
  · rw [Array.size_append, Array.size_map]
    exact hsize.trans (congrArg (f.size + ·) hempty.symm)
  · rw [← Forest.get_eq_getElem _ hid]
    rcases Nat.lt_or_ge id f.size with hold | hnew
    · rw [Array.getElem_append_left hold, ((grown_parse source f).get hold).2, Forest.get_eq_getElem f hold]
    · obtain ⟨k, rfl⟩ := Nat.exists_eq_add_of_le hnew
      have hlt : f.size + k - f.nodes.size < (parse source {}).1.nodes.size := by
        have hbound : f.size + k < (parse source f).1.size := hid
        show f.size + k - f.size < (parse source {}).1.size
        omega
      have hcopy := hcopied.get k (Nat.zero_le k)
      rw [renumber_of_le (Nat.zero_le k), Nat.sub_zero, Instruction.renumber_zero] at hcopy
      rw [hcopy, Array.getElem_append_right hnew, Array.getElem_map, ← Forest.get_eq_getElem _ hlt,
        show f.size + k - f.nodes.size = k from Nat.add_sub_cancel_left ..]

/-- A source has the outcome that it has in an empty forest, counted from the size of the forest on. -/
theorem outcome_parse (source : String) (f : Forest) :
    (parse source f).2 = (parse source {}).2.map (f.size + ·) := by
  rw [(copied_parse source {} f).2]
  exact congrArg (Except.map · _) (renumber_zero f.size)

/-- **Sources that share a forest do not meet.** A source adds to any forest exactly the instructions that
it has in an empty one, with all numbers counted from the size of the forest on, and has the same outcome,
with the same line and fault. It is an error exactly if a line says something and is no phrase; the first
such line is reported. The instructions added then are the root and those of the lines before that line,
which stand as if the source ended there. -/
theorem parse_shared (source : String) (f : Forest) :
    (parse source f).1.nodes = f.nodes ++ (parse source {}).1.nodes.map (Instruction.shift f.size) ∧
    (parse source f).2 = (parse source {}).2.map (f.size + ·) ∧
    (∀ e, (parse source f).2 = .error e ↔ ∃ before, StopsAt (lines source.toList) before e) ∧
    (∀ e before, StopsAt (lines source.toList) before e →
      ReadAs (spoken before) f (parse source f).1 ∧
      ∃ front back, source.toList = front ++ back ∧ lines front = before ∧
        parse (String.ofList front) f = ((parse source f).1, .ok f.size)) := by
  refine ⟨nodes_parse source f, outcome_parse source f, fun e => parse_eq_error_iff, ?_⟩
  intro e before hstop
  obtain ⟨g, hg, hparse, hends⟩ := hstop.parse_eq f
  have hstop' := hstop
  obtain ⟨-, -, raw, after, hlines, -⟩ := hstop'
  obtain ⟨front, back, hsource, hfront⟩ := exists_front_of_lines hlines
  rw [hparse]
  refine ⟨hg, front, back, hsource, hfront, hends _ ?_⟩
  rw [String.toList_ofList, hfront]

/-- A literal without its closing quote on the fourth line, behind a blank line and a comment, read into a
forest that holds another source. -/
theorem parse_shared_unterminated :
    let f := (parse "a\n b\n" {}).1
    let source := "x : y\n\n # note\n\tz 'o\n w\n"
    let e : OutlineError := ⟨4, .unterminated "'o"⟩
    (parse source f).2 = .error e ∧
      (parse source f).1.nodes = f.nodes ++ (parse source {}).1.nodes.map (Instruction.shift f.size) ∧
      ∃ before, before.length = 3 ∧ StopsAt (lines source.toList) before e ∧
        ReadAs (spoken before) f (parse source f).1 := by
  intro f source e
  obtain ⟨hnodes, -, herror, hstop⟩ := parse_shared source f
  have he : (parse source f).2 = .error e := by decide +kernel
  obtain ⟨before, hbefore⟩ := (herror e).mp he
  have hlength : 4 = before.length + 1 := hbefore.2.1
  exact ⟨he, hnodes, before, by omega, hbefore, (hstop e before hbefore).1⟩

end Outline

end LightHeaders
