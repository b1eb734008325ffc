import LightHeaders.Proofs.HeaderItems
import LightHeaders.Proofs.Sources

set_option autoImplicit false

/-! # Spellings of a prototype

A declarator is a type, made of words with marks for pointers and references behind them, and a name. It
can be spelled in many ways: with blanks around its words, with the marks at the last word of the type, at
the name or between them, in one piece or in many, and with specifiers among the words
(`Declarator.Spells`). All of them are read as one: the words of the type with one blank between two, and
the marks right behind (`Prototype.typeAndName?_of_spells`). So every spelling of a prototype is read as
that prototype (`Prototype.parse?_of_spells`).

A specifier has to be a word of its own. One that touches a mark is not known as a specifier, and stays in
the type (`Prototype.parse?_specifier_at_mark`).
-/

namespace LightHeaders

open Text Line

/-! ## Words with blanks between them -/

namespace Text

/-- The text is made of the given words, with blanks around them and between any two. -/
inductive Spaced : List Char → List (List Char) → Prop
  | nil {gap : List Char} (blank : Gap gap) : Spaced gap []
  | cons {gap w rest : List Char} {ws : List (List Char)} (blank : Gap gap) (word : IsWord w rest)
      (more : Spaced rest ws) : Spaced (gap ++ w ++ rest) (w :: ws)

variable {c : Char} {cs current gap rest w : List Char} {ws : List (List Char)}

theorem wordsFrom_gap_append (h : Gap gap) (cs : List Char) : wordsFrom [] (gap ++ cs) = words cs := by
  induction gap with
  | nil => rfl
  | cons b gap ih =>
    rw [List.cons_append, wordsFrom, if_pos (h b (.head _))]
    exact ih fun c hc => h c (.tail _ hc)

theorem wordsFrom_solid_append (h : Solid w) (current rest : List Char) :
    wordsFrom current (w ++ rest) = wordsFrom (w.reverse ++ current) rest := by
  induction w generalizing current with
  | nil => rfl
  | cons c w ih =>
    simp [wordsFrom, h c (.head _), ih fun d hd => h d (.tail _ hd)]

theorem words_word_append (h : IsWord w rest) : words (w ++ rest) = w :: words rest := by
  have hne : w.reverse.isEmpty = false := by simpa using h.ne_nil
  rw [words, wordsFrom_solid_append h.solid, List.append_nil]
  cases rest with
  | nil => simp [wordsFrom, words, h.ne_nil]
  | cons b rest =>
    have hblank := h.ends b rfl
    simp [wordsFrom, words, hblank, h.ne_nil]

/-- **The words of a text are those it is made of.** -/
theorem words_of_spaced (h : Spaced cs ws) : words cs = ws := by
  induction h with
  | nil blank => simpa [words, wordsFrom] using wordsFrom_gap_append blank []
  | cons blank word _ ih =>
    rw [List.append_assoc, words, wordsFrom_gap_append blank, words_word_append word, ih]

/-- Every text is made of its words. -/
theorem spaced_words (cs : List Char) : Spaced cs (words cs) := by
  induction hn : cs.length using Nat.strongRecOn generalizing cs with
  | ind n ih =>
    have hgap := gap_takeWhile cs
    have hsplit : cs.takeWhile isBlank ++ trimStart cs = cs := List.takeWhile_append_dropWhile
    cases hrest : trimStart cs with
    | nil =>
      rw [hrest, List.append_nil] at hsplit
      rw [hsplit] at hgap
      have hnone : words cs = [] := by simpa [words, wordsFrom] using wordsFrom_gap_append hgap []
      rw [hnone]
      exact .nil hgap
    | cons c rest =>
      have hc : isBlank c = false := trimStart_flush cs c (by rw [hrest]; rfl)
      have hword : IsWord (word (c :: rest)) (afterWord (c :: rest)) :=
        isWord_word (by rw [word_cons hc]; exact List.cons_ne_nil _ _)
      rw [hrest, ← word_append_afterWord (c :: rest), ← List.append_assoc] at hsplit
      have hlength := congrArg List.length hsplit
      have hpos := List.length_pos_iff.mpr hword.ne_nil
      simp only [List.length_append] at hlength
      rw [← hsplit, List.append_assoc, words, wordsFrom_gap_append hgap, words_word_append hword,
        ← List.append_assoc]
      exact .cons hgap hword (ih _ (by omega) _ rfl)

theorem mem_of_spaced (h : Spaced cs ws) (hc : c ∈ cs) : isBlank c = true ∨ ∃ w ∈ ws, c ∈ w := by
  induction h with
  | nil blank => exact .inl (blank c hc)
  | cons blank _ _ ih =>
    rcases List.mem_append.mp hc with hc | hc
    · rcases List.mem_append.mp hc with hc | hc
      · exact .inl (blank c hc)
      · exact .inr ⟨_, .head _, hc⟩
    · exact (ih hc).imp_right fun ⟨w, hw, hc⟩ => ⟨w, .tail _ hw, hc⟩

theorem ne_nil_of_spaced (h : Spaced cs ws) : ∀ w ∈ ws, w ≠ [] := by
  induction h with
  | nil => exact fun _ hw => absurd hw List.not_mem_nil
  | cons _ word _ ih => exact List.forall_mem_cons.mpr ⟨word.ne_nil, ih⟩

theorem wordsFrom_append_gap (cs current : List Char) (h : Gap gap) :
    wordsFrom current (cs ++ gap) = wordsFrom current cs := by
  induction cs generalizing current with
  | nil =>
    cases gap with
    | nil => rfl
    | cons b gap =>
      have hgap : wordsFrom [] gap = [] := by
        simpa [words, wordsFrom] using wordsFrom_gap_append (fun c hc => h c (.tail _ hc)) []
      simp [wordsFrom, h b (.head _), hgap]
  | cons c cs ih => simp only [List.cons_append, wordsFrom, ih]

theorem words_trimStart (cs : List Char) : words (trimStart cs) = words cs := by
  rw [← wordsFrom_gap_append (gap_takeWhile cs), trimStart, List.takeWhile_append_dropWhile, words]

theorem exists_trimEnd_append (cs : List Char) : ∃ gap, Gap gap ∧ trimEnd cs ++ gap = cs := by
  refine ⟨(cs.reverse.takeWhile isBlank).reverse, fun c hc => gap_takeWhile _ c (List.mem_reverse.mp hc), ?_⟩
  rw [trimEnd, ← List.reverse_append, List.takeWhile_append_dropWhile, List.reverse_reverse]

theorem words_trim (cs : List Char) : words (trim cs) = words cs := by
  obtain ⟨gap, hgap, heq⟩ := exists_trimEnd_append (trimStart cs)
  rw [← words_trimStart cs, ← heq, words, words, wordsFrom_append_gap _ [] hgap, trim]

theorem trim_gap (h : Gap gap) : trim gap = [] := trim_append_gap [] h

/-- **To trim a text changes no word of its pieces.** -/
theorem map_words_splitAt_trim {sep : Char} (hsep : isBlank sep = false) (cs : List Char) :
    (splitAt sep (trim cs)).map words = (splitAt sep cs).map words := by
  have hfree : ∀ {gap : List Char}, Gap gap → sep ∉ gap := fun hgap hmem => by
    cases hsep.symm.trans (hgap sep hmem)
  -- blanks at the start belong to the first piece, those at the end to the last one
  have hstart : (splitAt sep (trimStart cs)).map words = (splitAt sep cs).map words := by
    obtain ⟨piece, pieces, hpieces⟩ := List.exists_cons_of_ne_nil (splitAt_ne_nil sep (trimStart cs))
    have hall := splitAt_append_of_not_mem (hfree (gap_takeWhile cs)) hpieces
    rw [takeWhile_append_trimStart] at hall
    rw [hpieces, hall, List.map_cons, List.map_cons, words, words, wordsFrom_gap_append (gap_takeWhile cs), words]
  obtain ⟨gap, hgap, heq⟩ : ∃ gap, Gap gap ∧ trim cs ++ gap = trimStart cs := exists_trimEnd_append _
  have hne := splitAt_ne_nil sep (trim cs)
  have hlast : sep ∉ (splitAt sep (trim cs)).getLast hne ++ gap := fun hmem =>
    (List.mem_append.mp hmem).elim (not_mem_of_mem_splitAt sep _ _ (List.getLast_mem hne)) (hfree hgap)
  rw [← hstart, ← heq, splitAt_append_getLast, splitAt_of_not_mem hlast, List.map_append, List.map_singleton,
    words, wordsFrom_append_gap _ [] hgap, ← words, ← List.map_singleton, ← List.map_append,
    List.dropLast_append_getLast]

/-- Words with a blank before each, and not only between them. -/
theorem flatMap_space (w : List Char) (ws : List (List Char)) :
    (w :: ws).flatMap (' ' :: ·) = ' ' :: join [' '] (w :: ws) := by
  induction ws generalizing w with
  | nil => simp [join]
  | cons next ws ih =>
    rw [List.flatMap_cons, ih, join]
    simp

end Text

namespace Prototype

/-! ## Closing up -/

/-- The text without the blanks before marks. -/
def tighten (cs : List Char) : List Char := closeUp '&' (closeUp '*' cs)

variable {c : Char} {cs t w : List Char}

variable {mark : Char}

theorem closeUp_cons (h : c ≠ ' ') (t : List Char) : closeUp mark (c :: t) = c :: closeUp mark t :=
  closeUp.eq_2 mark c t (by rintro _ _ rfl; exact absurd rfl h)

theorem closeUp_append (h : ' ' ∉ w) (t : List Char) : closeUp mark (w ++ t) = w ++ closeUp mark t := by
  induction w with
  | nil => rfl
  | cons c w ih =>
    rw [List.mem_cons, not_or] at h
    rw [List.cons_append, closeUp_cons (Ne.symm h.1), ih h.2, List.cons_append]

theorem tighten_append (h : ' ' ∉ w) (t : List Char) : tighten (w ++ t) = w ++ tighten t := by
  rw [tighten, closeUp_append h, closeUp_append h, tighten]

theorem tighten_mark (h : isMark c = true) (t : List Char) : tighten (' ' :: c :: t) = c :: tighten t := by
  have hcases : c = '*' ∨ c = '&' := by simpa [isMark] using h
  rcases hcases with rfl | rfl
  · rw [tighten, closeUp, if_pos rfl, closeUp_cons (by decide), tighten]
  · rw [tighten, closeUp, if_neg (by decide), closeUp_cons (show '&' ≠ ' ' by decide), closeUp, if_pos rfl,
      tighten]

theorem tighten_letter (h : isMark c = false) (hc : c ≠ ' ') (t : List Char) :
    tighten (' ' :: c :: t) = ' ' :: tighten (c :: t) := by
  have hne : c ≠ '*' ∧ c ≠ '&' := by simpa [isMark] using h
  rw [tighten, tighten, closeUp, if_neg hne.1, closeUp_cons hc, closeUp, if_neg hne.2]

theorem space_not_mem_of_marks (h : ∀ c ∈ w, isMark c = true) : ' ' ∉ w :=
  fun hmem => absurd (h ' ' hmem) (by decide)

theorem tighten_marks {ms : List (List Char)} (hne : ∀ m ∈ ms, m ≠ [])
    (h : ∀ m ∈ ms, ∀ c ∈ m, isMark c = true) (t : List Char) :
    tighten (ms.flatMap (' ' :: ·) ++ t) = ms.flatten ++ tighten t := by
  induction ms with
  | nil => rfl
  | cons m ms ih =>
    rw [List.forall_mem_cons] at hne h
    obtain ⟨c, m, rfl⟩ := List.exists_cons_of_ne_nil hne.1
    have hspace := space_not_mem_of_marks fun c hc => h.1 c (.tail _ hc)
    rw [List.flatMap_cons, List.append_assoc, List.cons_append, List.cons_append,
      tighten_mark (h.1 c (.head _)), tighten_append hspace, ih hne.2 h.2]
    simp

/-! ## Declarators -/

/-- The characters that separate declarators and what is made of them. -/
def stops : List Char := ['(', ')', '\x7b', '\x7d', ',', ';']

/-- A word of a type, or a name. -/
structure IsPlain (w : List Char) : Prop where
  ne_nil : w ≠ []
  chars : ∀ c ∈ w, isBlank c = false ∧ isMark c = false ∧ c ∉ stops
  noSpecifier : specifiers.contains (String.ofList w) = false

instance (w : List Char) : Decidable (IsPlain w) :=
  decidable_of_iff (w ≠ [] ∧ w.Forall (fun c => isBlank c = false ∧ isMark c = false ∧ c ∉ stops) ∧
    specifiers.contains (String.ofList w) = false)
    ⟨fun h => ⟨h.1, List.forall_iff_forall_mem.mp h.2.1, h.2.2⟩,
      fun h => ⟨h.ne_nil, List.forall_iff_forall_mem.mpr h.chars, h.noSpecifier⟩⟩

theorem IsPlain.space_not_mem (h : IsPlain w) : ' ' ∉ w :=
  fun hmem => absurd (h.chars ' ' hmem).1 (by decide)

theorem tighten_words {ws : List (List Char)} (h : ∀ w ∈ ws, IsPlain w) (t : List Char) :
    tighten (ws.flatMap (' ' :: ·) ++ t) = ws.flatMap (' ' :: ·) ++ tighten t := by
  induction ws with
  | nil => rfl
  | cons w ws ih =>
    rw [List.forall_mem_cons] at h
    have hspace := h.1.space_not_mem
    obtain ⟨c, w, rfl⟩ := List.exists_cons_of_ne_nil h.1.ne_nil
    rw [List.flatMap_cons, List.append_assoc, List.cons_append, List.cons_append,
      tighten_letter (h.1.chars c (.head _)).2.1 (fun hc => hspace (hc ▸ .head _)), ← List.cons_append,
      tighten_append hspace, ih h.2]
    simp

end Prototype

open Prototype

/-- A type, by its words and the marks behind them, and a name. The last word stands apart, so there is
one. -/
structure Declarator where
  front : List (List Char)
  last : List Char
  marks : List Char
  name : List Char

namespace Declarator

/-- The type as it is read. -/
def type (d : Declarator) : String := String.ofList (join [' '] (d.front ++ [d.last]) ++ d.marks)

/-- Words, marks and name are what they should be. -/
structure Proper (d : Declarator) : Prop where
  words : ∀ w ∈ d.front ++ [d.last], IsPlain w
  marks : ∀ c ∈ d.marks, isMark c = true
  name : IsPlain d.name

instance (d : Declarator) : Decidable d.Proper :=
  decidable_of_iff ((∀ w ∈ d.front ++ [d.last], IsPlain w) ∧ d.marks.Forall (isMark · = true) ∧ IsPlain d.name)
    ⟨fun h => ⟨h.1, List.forall_iff_forall_mem.mp h.2.1, h.2.2⟩,
      fun h => ⟨h.words, List.forall_iff_forall_mem.mpr h.marks, h.name⟩⟩

/-- The text spells the declarator. Without the specifiers its words are those of the type but for the
last one, that one with the first of the marks behind it, more marks, and the name with the last of the
marks before it. -/
inductive Spells (d : Declarator) (cs : List Char) : Prop
  | mk {chunks : List (List Char)} (first : List Char) (ms : List (List Char)) (final : List Char)
      (spaced : Spaced cs chunks)
      (kept : chunks.filter (fun w => !specifiers.contains (String.ofList w)) =
        d.front ++ (d.last ++ first) :: ms ++ [final ++ d.name])
      (marks : first ++ ms.flatten ++ final = d.marks) : Spells d cs

/-- The text spells the parameters of a list. -/
inductive SpellsAll : List Declarator → List Char → Prop
  | empty {cs : List Char} (blank : Gap cs) : SpellsAll [] cs
  | void {gap gap' : List Char} (blank : Gap gap) (blank' : Gap gap') :
      SpellsAll [] (gap ++ "void".toList ++ gap')
  | params {ds : List Declarator} {texts : List (List Char)} (ne_nil : ds ≠ [])
      (spelled : List.Forall₂ Spells ds texts) : SpellsAll ds (join [','] texts)

variable {d : Declarator} {cs : List Char}

theorem Spells.not_mem_stops (h : d.Spells cs) (hd : d.Proper) {c : Char} (hc : c ∈ cs) : c ∉ stops := by
  obtain ⟨_, _, _, spaced, kept, marks⟩ := h
  rcases mem_of_spaced spaced hc with hblank | ⟨w, hw, hcw⟩
  · have hstops : ∀ c ∈ stops, isBlank c = false := List.forall_iff_forall_mem.mp (by decide)
    intro hmem
    rw [hstops c hmem] at hblank
    cases hblank
  · cases hspecifier : specifiers.contains (String.ofList w) with
    | true =>
      have hletters : ∀ s ∈ specifiers, s.toList.Forall (· ∉ stops) := by decide
      exact List.forall_iff_forall_mem.mp (hletters _ (by simpa using hspecifier)) c (by simpa using hcw)
    | false =>
      have hword : ∀ w ∈ d.front ++ [d.last] ++ [d.name], IsPlain w :=
        List.forall_mem_append.mpr ⟨hd.words, by simpa using hd.name⟩
      have hmark : c ∈ d.marks → c ∉ stops := by
        have hmarks : ∀ c ∈ stops, isMark c = false := List.forall_iff_forall_mem.mp (by decide)
        intro hmem hstop
        cases (hmarks c hstop).symm.trans (hd.marks c hmem)
      have hkept := kept ▸ List.mem_filter.mpr ⟨hw, by rw [hspecifier]; rfl⟩
      simp only [List.mem_append, List.mem_cons, List.not_mem_nil, or_false] at hkept hword
      rw [← marks] at hmark
      simp only [List.mem_append, List.mem_flatten] at hmark
      rcases hkept with (hw | rfl | hw) | rfl
      · exact ((hword w (.inl (.inl hw))).chars c hcw).2.2
      · rcases List.mem_append.mp hcw with hcw | hcw
        · exact ((hword d.last (.inl (.inr rfl))).chars c hcw).2.2
        · exact hmark (.inl (.inl hcw))
      · exact hmark (.inl (.inr ⟨w, hw, hcw⟩))
      · rcases List.mem_append.mp hcw with hcw | hcw
        · exact hmark (.inr hcw)
        · exact ((hword d.name (.inr rfl)).chars c hcw).2.2

end Declarator

namespace Prototype

open Declarator

variable {d : Declarator} {cs : List Char}

/-- **The words of a type are closed up** to the words with one blank between two and all marks behind. -/
theorem tighten_join {front ms : List (List Char)} {last first final : List Char}
    (hwords : ∀ w ∈ front ++ [last], IsPlain w) (hne : ∀ m ∈ ms, m ≠ [])
    (hmarks : ∀ c ∈ first ++ ms.flatten ++ final, isMark c = true) :
    tighten (join [' '] (front ++ (last ++ first) :: ms) ++ final) =
      join [' '] (front ++ [last]) ++ (first ++ ms.flatten ++ final) := by
  simp only [List.mem_append, List.mem_flatten, or_imp, forall_and] at hmarks
  obtain ⟨⟨hfirst, hms⟩, hfinal⟩ := hmarks
  have htext : (front ++ (last ++ first) :: ms).flatMap (' ' :: ·) ++ final =
      (front ++ [last]).flatMap (' ' :: ·) ++ (first ++ (ms.flatMap (' ' :: ·) ++ final)) := by simp
  have hend : tighten final = final := by
    simpa [tighten, closeUp] using tighten_append (space_not_mem_of_marks hfinal) []
  have htight := tighten_words hwords (first ++ (ms.flatMap (' ' :: ·) ++ final))
  rw [← htext, tighten_append (space_not_mem_of_marks hfirst),
    tighten_marks hne (fun m hm c hc => hms c ⟨m, hm, hc⟩), hend] at htight
  -- a blank before the first word is as good as one between two
  obtain ⟨w, ws, hnames⟩ := List.exists_cons_of_ne_nil (l := front ++ [last]) (by simp)
  obtain ⟨w', ws', hchunks⟩ := List.exists_cons_of_ne_nil (l := front ++ (last ++ first) :: ms) (by simp)
  have hw : IsPlain w := hwords w (hnames ▸ .head _)
  obtain ⟨c, w, rfl⟩ := List.exists_cons_of_ne_nil hw.ne_nil
  rw [hchunks, hnames, flatMap_space, flatMap_space, List.cons_append, List.cons_append] at htext htight
  have hstart : ∃ t, join [' '] (w' :: ws') ++ final = c :: t := by
    rw [(List.cons.inj htext).2]
    cases ws <;> exact ⟨_, rfl⟩
  obtain ⟨t, hstart⟩ := hstart
  rw [hstart, tighten_letter (hw.chars c (.head _)).2.1 (fun hc => hw.space_not_mem (hc ▸ .head _)), ← hstart]
    at htight
  rw [hchunks, hnames, (List.cons.inj htight).2, List.append_assoc]

/-- **A declarator is read from any of its spellings.** -/
theorem typeAndName?_of_spells (h : d.Spells cs) (hd : d.Proper) :
    typeAndName? cs = some (d.type, String.ofList d.name) := by
  obtain @⟨chunks, first, ms, final, spaced, kept, marks⟩ := h
  have hne : ∀ m ∈ ms, m ≠ [] := by
    intro m hm
    have hmem : m ∈ chunks.filter fun w => !specifiers.contains (String.ofList w) := by
      rw [kept]
      simp [hm]
    exact ne_nil_of_spaced spaced m (List.mem_of_mem_filter hmem)
  have hmarks : ∀ c ∈ first ++ ms.flatten ++ final, isMark c = true := by
    rw [marks]
    exact hd.marks
  have hfinal : ∀ c ∈ final, isMark c = true := fun c hc => hmarks c (List.mem_append_right _ hc)
  obtain ⟨c, name, hname⟩ := List.exists_cons_of_ne_nil hd.name.ne_nil
  have hc : isMark c = false := (hd.name.chars c (hname ▸ .head _)).2.1
  have hdrop : (final ++ d.name).dropWhile isMark = d.name := by
    rw [List.dropWhile_append_of_pos hfinal, hname, List.dropWhile_cons_of_neg (by simp [hc])]
  have htake : (final ++ d.name).takeWhile isMark = final := by
    rw [List.takeWhile_append_of_pos hfinal, hname, List.takeWhile_cons_of_neg (by simp [hc]), List.append_nil]
  obtain ⟨w, ws, hrest⟩ := List.exists_cons_of_ne_nil
    (l := d.front ++ (d.last ++ first) :: ms) (by simp)
  have htype := tighten_join hd.words hne hmarks
  rw [hrest, marks] at htype
  rw [typeAndName?, words_of_spaced spaced, kept, hrest]
  simp only [List.getLast?_concat, List.dropLast_concat, hdrop, htake, if_neg hd.name.ne_nil]
  rw [show closeUp '&' _ = _ from htype, Declarator.type]

theorem two_le_words (h : d.Spells cs) : 2 ≤ (words cs).length := by
  obtain ⟨_, _, _, spaced, kept, -⟩ := h
  have hlength := congrArg List.length kept
  simp only [List.length_append, List.length_cons, List.length_nil] at hlength
  have hle := List.length_filter_le (fun w => !specifiers.contains (String.ofList w)) (words cs)
  rw [words_of_spaced spaced] at hle ⊢
  omega

variable {ds : List Declarator} {list texts : List (List Char)}

section Params

variable (hds : ∀ d ∈ ds, d.Proper)
include hds

theorem parseParams?_of_spells (h : List.Forall₂ Spells ds texts) {pieces : List (List Char)}
    (hwords : pieces.map words = texts.map words) (index : Nat) :
    parseParams? index pieces = some (ds.map fun d => (String.ofList d.name, d.type)) := by
  induction h generalizing index pieces with
  | nil =>
    rw [List.map_nil, List.map_eq_nil_iff] at hwords
    rw [hwords]
    rfl
  | @cons _ text _ _ hspells _ ih =>
    obtain ⟨piece, pieces, rfl, hpiece, hrest⟩ := List.map_eq_cons_iff.mp hwords
    rw [List.forall_mem_cons] at hds
    have hsame : typeAndName? (trim piece) = typeAndName? text := by
      rw [typeAndName?, words_trim, hpiece, typeAndName?]
    rw [parseParams?, parseParam?, hsame, typeAndName?_of_spells hspells hds.1]
    simp only [Option.bind_eq_bind, Option.bind_some, ih hds.2 hrest]
    rfl

theorem not_mem_stops_of_forall₂ (h : List.Forall₂ Spells ds texts) :
    ∀ text ∈ texts, ∀ c ∈ text, c ∉ stops := by
  induction h with
  | nil => simp
  | cons hspells _ ih =>
    rw [List.forall_mem_cons] at hds
    exact List.forall_mem_cons.mpr ⟨fun _ hc => hspells.not_mem_stops hds.1 hc, ih hds.2⟩

theorem brace_not_mem (h : SpellsAll ds cs) {c : Char} (hc : c = '\x7b' ∨ c = '\x7d') : c ∉ cs := by
  have hstop : c ∈ stops ∧ isBlank c = false ∧ c ∉ "void".toList ∧ c ≠ ',' := by
    rcases hc with rfl | rfl <;> decide
  have hgap : ∀ {gap : List Char}, Gap gap → c ∉ gap := fun hgap hmem => by
    cases hstop.2.1.symm.trans (hgap c hmem)
  cases h with
  | empty blank => exact hgap blank
  | void blank blank' =>
    simp only [List.mem_append, not_or]
    exact ⟨⟨hgap blank, hstop.2.2.1⟩, hgap blank'⟩
  | params _ spelled =>
    intro hmem
    rcases mem_of_mem_join hmem with hmem | ⟨text, htext, hmem⟩
    · exact hstop.2.2.2 (List.mem_singleton.mp hmem)
    · exact not_mem_stops_of_forall₂ hds spelled text htext c hmem hstop.1

theorem params_of_spells (h : SpellsAll ds cs) :
    (if trim cs = [] || trim cs = "void".toList then some []
      else parseParams? 0 (splitAt ',' (trim cs))) =
    some (ds.map fun d => (String.ofList d.name, d.type)) := by
  cases h with
  | empty blank =>
    rw [trim_gap blank]
    rfl
  | void blank blank' =>
    have hflush : Flush "void".toList := Flush.cons (by decide) _
    rw [trim_append_gap _ blank', trim, blank.trimStart_append hflush,
      trimEnd_of_solidEnd ⟨'d', rfl, by decide⟩]
    rfl
  | @params _ texts hne spelled =>
    have hcomma : ∀ text ∈ texts, ',' ∉ text := fun text htext hmem =>
      not_mem_stops_of_forall₂ hds spelled text htext ',' hmem (by decide)
    have hpieces := map_words_splitAt_trim (show isBlank ',' = false by decide) (join [','] texts)
    rw [splitAt_join (by rintro rfl; cases spelled; exact hne rfl) hcomma] at hpieces
    -- a list of declarators has more than one word or more than one piece
    have hlong : ∀ {short : List Char}, ',' ∉ short → (words short).length < 2 →
        trim (join [','] texts) ≠ short := by
      rintro short hfree hshort rfl
      rw [splitAt_of_not_mem hfree] at hpieces
      cases spelled with
      | nil => exact hne rfl
      | cons hspells _ =>
        rw [List.map_cons, List.map_cons, List.cons.injEq] at hpieces
        rw [hpieces.1] at hshort
        exact absurd (two_le_words hspells) (not_le.mpr hshort)
    rw [if_neg, parseParams?_of_spells hds spelled hpieces]
    simp only [Bool.or_eq_true, decide_eq_true_eq, not_or]
    exact ⟨hlong (by simp) (by decide), hlong (by decide) (by decide)⟩

end Params

/-- **Every spelling of a prototype is read as that prototype.** -/
theorem parse?_of_spells {front list gap : List Char} (hd : d.Proper) (hds : ∀ d ∈ ds, d.Proper)
    (hfront : d.Spells front) (hlist : SpellsAll ds list) (hgap : Gap gap) :
    parse? (front ++ '(' :: (list ++ ')' :: gap)) = some
      { name := String.ofList d.name, result := d.type
        params := ds.map fun d => (String.ofList d.name, d.type) } := by
  have hbrace : ∀ c, c = '\x7b' ∨ c = '\x7d' → c ∉ front ++ '(' :: (list ++ ')' :: gap) := by
    intro c hc
    have hstop : c ∈ stops ∧ isBlank c = false ∧ c ≠ '(' ∧ c ≠ ')' := by
      rcases hc with rfl | rfl <;> decide
    have hgap' : c ∉ gap := fun hmem => by cases hstop.2.1.symm.trans (hgap c hmem)
    have hfront' : c ∉ front := fun hmem => hfront.not_mem_stops hd hmem hstop.1
    simp [hfront', brace_not_mem hds hlist hc, hgap', hstop.2.2]
  have hopen : cutFirst? '(' (front ++ '(' :: (list ++ ')' :: gap)) = some (front, list ++ ')' :: gap) :=
    cutFirst?_append (fun hmem => hfront.not_mem_stops hd hmem (by decide)) _
  have hclose : cutLast? ')' (list ++ ')' :: gap) = some (list, gap) :=
    cutLast?_append list fun hmem => absurd (hgap _ hmem) (by decide)
  have hparams := params_of_spells hds hlist
  have hfree : ¬((front ++ '(' :: (list ++ ')' :: gap)).contains '\x7b' ||
      (front ++ '(' :: (list ++ ')' :: gap)).contains '\x7d') = true := by
    simpa only [Bool.or_eq_true, List.contains_iff_mem, not_or] using
      ⟨hbrace _ (.inl rfl), hbrace _ (.inr rfl)⟩
  rw [parse?, if_neg hfree]
  simp only [Option.bind_eq_bind, Option.bind_some, hopen, hclose, trim_gap hgap,
    typeAndName?_of_spells hfront hd]
  rw [if_neg (by simp)]
  split at hparams
  · next hshort => rw [if_pos hshort, ← Option.some.inj hparams]
  · next hlong => rw [if_neg hlong, hparams, Option.bind_some]

/-- Specifiers before and inside a type, and marks at the name, at the type and apart from both. -/
theorem parse?_of_spells_mixed :
    parse? "static char *f( int  a ,extern long& * b) ".toList =
      some ⟨"f", "char*", [("a", "int"), ("b", "long&*")]⟩ := by
  have hf : Spells ⟨[], "char".toList, ['*'], ['f']⟩ "static char *f".toList :=
    .mk [] [] ['*'] (spaced_words _) (by decide) rfl
  have ha : Spells ⟨[], "int".toList, [], ['a']⟩ " int  a ".toList :=
    .mk [] [] [] (spaced_words _) (by decide) rfl
  have hb : Spells ⟨[], "long".toList, ['&', '*'], ['b']⟩ "extern long& * b".toList :=
    .mk ['&'] [['*']] [] (spaced_words _) (by decide) rfl
  have hgap : Gap [' '] := List.forall_mem_singleton.mpr (by decide)
  exact parse?_of_spells (by decide) (by decide) hf (.params (by simp) (.cons ha (.cons hb .nil))) hgap

/-- A specifier that touches a mark is taken for a part of the type. -/
theorem parse?_specifier_at_mark :
    parse? "int static* f(void)".toList = some ⟨"f", "int static*", []⟩ ∧
      parse? "int* f(void)".toList = some ⟨"f", "int*", []⟩ ∧
      parse? "static int* f(void)".toList = some ⟨"f", "int*", []⟩ := by
  decide +kernel

end Prototype

end LightHeaders
