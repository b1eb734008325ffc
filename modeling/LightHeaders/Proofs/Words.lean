import LightHeaders.Text.Blank
import LightHeaders.Text.Lines
import Mathlib.Data.List.DropRight

set_option autoImplicit false

/-! # Reading back what was put together

How words, trimmed texts and lines are found again in a text that was put together from them.

* A word without blanks is the first word of a text in which a blank or nothing follows it
  (`word_append`, `afterWord_append`).
* A text with no blank at either end is what is left when blanks are put before it and the whole
  is trimmed (`trim_blanks_append`).
* Lines that hold no line feed, and do not end in a carriage return, are the lines of the text in
  which each is ended by a line feed (`lines_unlines`).
-/

namespace LightHeaders.Text

/-! ## Texts by their blanks -/

/-- No character of the text is a blank. -/
def Solid (cs : List Char) : Prop := ∀ c ∈ cs, isBlank c = false

/-- The text is empty or starts with a blank, so a word before it ends there. -/
def Parted (cs : List Char) : Prop := ∀ c, cs.head? = some c → isBlank c = true

/-- The text is empty or starts with something that is no blank. -/
def Flush (cs : List Char) : Prop := ∀ c, cs.head? = some c → isBlank c = false

/-- The text ends in something that is no blank. -/
def SolidEnd (cs : List Char) : Prop := ∃ c, cs.getLast? = some c ∧ isBlank c = false

@[simp] theorem isBlank_space : isBlank ' ' = true := by decide

@[simp] theorem isBlank_newline : isBlank '\n' = true := by decide

@[simp] theorem isBlank_return : isBlank '\r' = true := by decide

theorem Solid.nil : Solid [] := by
  intro c hc
  cases hc

theorem Parted.nil : Parted [] := by
  intro c hc
  cases hc

variable {c sep : Char} {bs cs line rest w : List Char}

theorem Parted.cons (h : isBlank c = true) (cs : List Char) : Parted (c :: cs) := by
  intro d hd
  simp only [List.head?_cons, Option.some.injEq] at hd
  rw [← hd, h]

theorem Flush.cons (h : isBlank c = false) (cs : List Char) : Flush (c :: cs) := by
  intro d hd
  simp only [List.head?_cons, Option.some.injEq] at hd
  rw [← hd, h]

theorem Solid.not_mem (h : Solid cs) (hc : isBlank c = true) :
    c ∉ cs := by
  intro hmem
  rw [h c hmem] at hc
  cases hc

theorem Solid.solidEnd (h : Solid cs) (hne : cs ≠ []) : SolidEnd cs :=
  ⟨cs.getLast hne, List.getLast?_eq_some_getLast hne, h _ (List.getLast_mem hne)⟩

/-- What is put behind a text that ends well keeps it so, if it is empty or ends well itself. -/
theorem SolidEnd.append {as : List Char} (ha : SolidEnd as) (hb : bs = [] ∨ SolidEnd bs) :
    SolidEnd (as ++ bs) := by
  rcases hb with rfl | ⟨c, hc, hblank⟩
  · rwa [List.append_nil]
  · exact ⟨c, by rw [List.getLast?_append, hc]; rfl, hblank⟩

theorem SolidEnd.append_left (as : List Char) (hb : SolidEnd bs) :
    SolidEnd (as ++ bs) := by
  obtain ⟨c, hc, hblank⟩ := hb
  exact ⟨c, by rw [List.getLast?_append, hc]; rfl, hblank⟩

/-! ## Words -/

theorem word_append (hw : Solid w) (hr : Parted rest) :
    word (w ++ rest) = w := by
  have hrest : rest.takeWhile (!isBlank ·) = [] := by
    cases rest with
    | nil => rfl
    | cons c cs => simp [hr c rfl]
  rw [word, List.takeWhile_append_of_pos (by simpa [Solid] using hw), hrest, List.append_nil]

theorem afterWord_append (hw : Solid w) (hr : Parted rest) :
    afterWord (w ++ rest) = rest := by
  rw [afterWord, List.dropWhile_append_of_pos (by simpa [Solid] using hw)]
  cases rest with
  | nil => rfl
  | cons c cs => simp [hr c rfl]

theorem word_solid (cs : List Char) : Solid (word cs) := by
  intro c hc
  have h := List.all_eq_true.mp (List.all_takeWhile (p := (!isBlank ·)) (l := cs)) c hc
  simpa using h

theorem word_cons (h : isBlank c = false) (cs : List Char) :
    word (c :: cs) = c :: word cs := by
  simp [word, h]

theorem word_append_afterWord (cs : List Char) : word cs ++ afterWord cs = cs :=
  List.takeWhile_append_dropWhile

/-! ## Trimming -/

@[simp] theorem trimStart_nil : trimStart [] = [] := rfl

theorem trimStart_of_flush (h : Flush cs) : trimStart cs = cs := by
  cases cs with
  | nil => rfl
  | cons c cs => simp [trimStart, h c rfl]

theorem trimStart_flush (cs : List Char) : Flush (trimStart cs) := by
  intro c hc
  have h := List.head?_dropWhile_not isBlank cs
  rw [show cs.dropWhile isBlank = trimStart cs from rfl, hc] at h
  simpa using h

theorem trimEnd_of_solidEnd (h : SolidEnd cs) : trimEnd cs = cs := by
  show cs.rdropWhile isBlank = cs
  obtain ⟨c, hc, hblank⟩ := h
  refine List.rdropWhile_eq_self_iff.mpr (fun hne => ?_)
  rw [List.getLast?_eq_some_getLast hne, Option.some.injEq] at hc
  rw [hc, hblank]
  simp

theorem trimEnd_initial (cs : List Char) : trimEnd cs <+: cs := List.rdropWhile_prefix isBlank cs

theorem trim_flush (cs : List Char) : Flush (trim cs) := by
  intro c hc
  obtain ⟨rest, hrest⟩ := trimEnd_initial (trimStart cs)
  refine trimStart_flush cs c ?_
  rw [← hrest, List.head?_append]
  rw [show trimEnd (trimStart cs) = trim cs from rfl, hc]
  rfl

theorem trim_sublist (cs : List Char) : (trim cs).Sublist cs :=
  (trimEnd_initial _).sublist.trans (List.dropWhile_suffix _).sublist

theorem mem_of_mem_trim (h : c ∈ trim cs) : c ∈ cs := (trim_sublist cs).mem h

theorem dropWhile_blanks_append (n : Nat) (cs : List Char) :
    (blanks n ++ cs).dropWhile isBlank = cs.dropWhile isBlank := by
  rw [List.dropWhile_append_of_pos]
  intro c hc
  rw [(List.mem_replicate.mp hc).2, isBlank_space]

/-- Blanks before a text that has none at its ends are trimmed, and nothing else. -/
theorem trim_blanks_append (n : Nat) (hs : Flush cs) (he : SolidEnd cs) :
    trim (blanks n ++ cs) = cs := by
  have hstart : trimStart (blanks n ++ cs) = cs := by
    rw [trimStart, dropWhile_blanks_append]
    exact trimStart_of_flush hs
  rw [trim, hstart, trimEnd_of_solidEnd he]

/-! ## Lines -/

theorem not_mem_of_mem_splitAt (sep : Char) (cs : List Char) :
    ∀ piece ∈ splitAt sep cs, sep ∉ piece := by
  induction cs with
  | nil => simp [splitAt]
  | cons c cs ih =>
    intro piece hp
    rw [splitAt] at hp
    by_cases hc : c = sep
    · rw [if_pos hc, List.mem_cons] at hp
      rcases hp with rfl | hp
      · simp
      · exact ih piece hp
    · rw [if_neg hc] at hp
      cases hs : splitAt sep cs with
      | nil => exact absurd hs (splitAt_ne_nil sep cs)
      | cons first others =>
        rw [hs] at hp ih
        rcases List.mem_cons.mp hp with rfl | hp
        · have hfirst := ih first (.head _)
          simp [Ne.symm hc, hfirst]
        · exact ih piece (.tail _ hp)

theorem cutLast?_eq_some {front back : List Char}
    (h : cutLast? sep cs = some (front, back)) : cs = front ++ sep :: back := by
  induction cs generalizing front back with
  | nil => cases h
  | cons c cs ih =>
    rw [cutLast?] at h
    split at h
    · next front' back' hcs =>
      cases h
      rw [ih hcs]
      rfl
    · split at h
      · next hc =>
        cases h
        rw [hc]
        rfl
      · cases h

theorem splitAt_append_cons {piece : List Char} (h : sep ∉ piece) (cs : List Char) :
    splitAt sep (piece ++ sep :: cs) = piece :: splitAt sep cs := by
  induction piece with
  | nil => simp [splitAt]
  | cons c piece ih =>
    rw [List.mem_cons, not_or] at h
    rw [List.cons_append, splitAt, if_neg (Ne.symm h.1), ih h.2]

theorem mem_of_mem_dropReturn (h : c ∈ dropReturn line) :
    c ∈ line := by
  unfold dropReturn at h
  split at h
  · exact List.dropLast_subset line h
  · exact h

theorem newline_not_mem_of_mem_lines (h : line ∈ lines cs) :
    '\n' ∉ line := by
  have key : ∀ pieces : List (List Char), (∀ piece ∈ pieces, '\n' ∉ piece) →
      ∀ line ∈ linesOfPieces pieces, '\n' ∉ line := by
    intro pieces
    induction pieces using linesOfPieces.induct with
    | case1 => simp [linesOfPieces]
    | case2 rest hrest => simp [linesOfPieces, hrest]
    | case3 rest hrest =>
      intro hp line hl
      simp only [linesOfPieces, if_neg hrest, List.mem_singleton] at hl
      exact hl ▸ hp rest (.head _)
    | case4 first next pieces ih =>
      intro hp line hl
      rw [linesOfPieces, List.mem_cons] at hl
      rcases hl with rfl | hl
      · exact fun hmem => hp first (.head _) (mem_of_mem_dropReturn hmem)
      · exact ih (fun piece hpiece => hp piece (.tail _ hpiece)) line hl
  exact key _ (not_mem_of_mem_splitAt '\n' cs) line h

/-- Each line with a line feed behind it, one after the other. -/
def unlines (ls : List (List Char)) : List Char := ls.flatMap (· ++ ['\n'])

@[simp] theorem unlines_nil : unlines [] = [] := rfl

theorem unlines_cons (l : List Char) (ls : List (List Char)) :
    unlines (l :: ls) = l ++ '\n' :: unlines ls := by
  simp [unlines]

theorem unlines_append (ks ls : List (List Char)) :
    unlines (ks ++ ls) = unlines ks ++ unlines ls := by
  simp [unlines]

theorem dropReturn_of_solidEnd (h : SolidEnd line) : dropReturn line = line := by
  obtain ⟨c, hc, hblank⟩ := h
  unfold dropReturn
  split
  · next hr =>
    rw [hr, Option.some.injEq] at hc
    rw [← hc] at hblank
    exact absurd hblank (by simp)
  · rfl

/-- **Lines are read back.** -/
theorem lines_unlines {ls : List (List Char)} (hn : ∀ l ∈ ls, '\n' ∉ l)
    (he : ∀ l ∈ ls, SolidEnd l) : lines (unlines ls) = ls := by
  induction ls with
  | nil => rfl
  | cons l ls ih =>
    have hrest := ih (fun k hk => hn k (.tail _ hk))
      (fun k hk => he k (.tail _ hk))
    rw [lines] at hrest
    rw [lines, unlines_cons, splitAt_append_cons (hn l (.head _))]
    cases hs : splitAt '\n' (unlines ls) with
    | nil => exact absurd hs (splitAt_ne_nil _ _)
    | cons first others =>
      rw [linesOfPieces, dropReturn_of_solidEnd (he l (.head _)), ← hs, hrest]

end LightHeaders.Text
