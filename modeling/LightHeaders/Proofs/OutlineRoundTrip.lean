import LightHeaders.Proofs.Sketch

set_option autoImplicit false

/-! # Reading and writing outlines

`Outline.parse` and `Outline.render` agree on the valid sketches.

* Reading the lines of a sketch puts the sketch into the forest (`readLines_linesAll`): a line is
  indented by its depth, so the instructions that are still open when it comes are those above it
  in the sketch.
* Whatever text is read, the forest holds valid sketches below the new root
  (`holdsBelow_of_parse`).
-/

namespace LightHeaders

open Text Forest

namespace Outline

/-! ## The lines of valid sketches -/

mutual

theorem mem_lines_of_valid :
    ∀ (t : Sketch) (depth : Nat), t.Valid → ∀ l ∈ t.lines depth, '\n' ∉ l ∧ SolidEnd l
  | .node wording children, depth, ht, l, hl => by
    rw [Sketch.Valid] at ht
    rw [Sketch.lines, List.mem_cons] at hl
    rcases hl with rfl | hl
    · refine ⟨?_, SolidEnd.append_left _ (Line.render_solidEnd ht.1)⟩
      have hblanks : '\n' ∉ blanks (4 * depth) := by
        intro h
        exact absurd (List.mem_replicate.mp h).2 (by decide)
      rw [List.mem_append, not_or]
      exact ⟨hblanks, Line.newline_not_mem_render ht.1⟩
    · exact mem_linesAll_of_valid children (depth + 1) ht.2 l hl

theorem mem_linesAll_of_valid :
    ∀ (ts : List Sketch) (depth : Nat), Sketch.AllValid ts →
      ∀ l ∈ Sketch.linesAll depth ts, '\n' ∉ l ∧ SolidEnd l
  | [], depth, _, l, hl => by simp [Sketch.linesAll] at hl
  | t :: ts, depth, hts, l, hl => by
    rw [Sketch.AllValid] at hts
    rw [Sketch.linesAll, List.mem_append] at hl
    rcases hl with hl | hl
    · exact mem_lines_of_valid t depth hts.1 l hl
    · exact mem_linesAll_of_valid ts depth hts.2 l hl

end

/-! ## Reading the lines of sketches -/

theorem columns_blanks_append (n : Nat) {cs : List Char} (h : Flush cs) :
    columns (blanks n ++ cs) = n := by
  have htake : (blanks n ++ cs).takeWhile isBlank = blanks n := by
    have hcs : cs.takeWhile isBlank = [] := by
      cases cs with
      | nil => rfl
      | cons c cs => simp [h c rfl]
    rw [List.takeWhile_append_of_pos, hcs, List.append_nil]
    intro c hc
    rw [(List.mem_replicate.mp hc).2, isBlank_space]
  rw [columns, htake, blanks]
  clear htake
  induction n with
  | zero => rfl
  | succ n ih =>
    rw [List.replicate_succ, List.foldr_cons, ih, if_neg (by decide), Nat.add_comm]

/-- The instructions that can still get children when a line with indentation `indent` comes. -/
def openAt (indent : Nat) (opened : List (Nat × InstructionId)) : List (Nat × InstructionId) :=
  opened.dropWhile fun (level, _) => indent ≤ level

/-- The instruction below which a line with indentation `indent` stands. -/
def parentAt (root : InstructionId) (indent : Nat) (opened : List (Nat × InstructionId)) :
    InstructionId :=
  ((openAt indent opened).head?.map Prod.snd).getD root

variable {f g : Forest} {i : Instruction} {root : InstructionId} {raw : List Char} {ts : List Sketch}
  {indent level : Nat} {st st' : Progress} {source : String}

theorem openAt_cons_of_lt (h : level < indent) (id : InstructionId) (opened : List (Nat × InstructionId)) :
    openAt indent ((level, id) :: opened) = (level, id) :: opened := by
  simp [openAt, h]

theorem openAt_cons_of_le (h : indent ≤ level) (id : InstructionId) (opened : List (Nat × InstructionId)) :
    openAt indent ((level, id) :: opened) = openAt indent opened := by
  simp [openAt, h]

/-- Closing for a deeper line first changes nothing. -/
theorem openAt_openAt {deeper : Nat} (h : indent ≤ deeper) (opened : List (Nat × InstructionId)) :
    openAt indent (openAt deeper opened) = openAt indent opened := by
  induction opened with
  | nil => rfl
  | cons entry opened ih =>
    obtain ⟨level, id⟩ := entry
    by_cases hd : deeper ≤ level
    · rw [openAt_cons_of_le hd, openAt_cons_of_le (le_trans h hd), ih]
    · rw [openAt_cons_of_lt (Nat.lt_of_not_le hd)]

/-- One line of a valid wording adds its instruction below the parent that its indentation says. -/
theorem readLine_render {w : Wording} (hw : w.Valid) (root : InstructionId) (st : Progress) (depth : Nat) :
    readLine root st (blanks (4 * depth) ++ Line.render w.instruction)
      = .ok {
          forest := (st.forest.addChild (parentAt root (4 * depth) st.opened) w.instruction).2
          opened := (4 * depth, st.forest.size) :: openAt (4 * depth) st.opened } := by
  obtain ⟨c, cs, hline, hc, hhash⟩ := Line.render_head hw
  have hflush : Flush (Line.render w.instruction) := by
    rw [hline]
    exact Flush.cons hc cs
  have htrim : trim (blanks (4 * depth) ++ Line.render w.instruction)
      = Line.render w.instruction :=
    trim_blanks_append (4 * depth) hflush (Line.render_solidEnd hw)
  have hloud : isSilent (Line.render w.instruction) = false := by
    rw [hline]
    simpa [isSilent] using hhash
  rw [readLine, htrim, hloud, columns_blanks_append (4 * depth) hflush, Line.parse_render hw]
  rfl

mutual

theorem readLines_lines (root : InstructionId) :
    ∀ (t : Sketch) (depth : Nat) (st : Progress) (number : Nat) (rest : List (List Char)),
      t.Valid →
      ∃ opened number', openAt (4 * depth) opened = openAt (4 * depth) st.opened ∧
        readLines root st number (t.lines depth ++ rest)
          = readLines root
              ⟨st.forest.plant (parentAt root (4 * depth) st.opened) t, opened⟩ number' rest
  | .node wording children, depth, st, number, rest, ht => by
    rw [Sketch.Valid] at ht
    obtain ⟨opened, number', hopened, hread⟩ := readLines_linesAll root children (depth + 1)
      { forest := (st.forest.addChild (parentAt root (4 * depth) st.opened)
          wording.instruction).2
        opened := (4 * depth, st.forest.size) :: openAt (4 * depth) st.opened }
      (number + 1) rest ht.2
    have hdeeper : 4 * depth < 4 * (depth + 1) := by omega
    simp only [openAt_cons_of_lt hdeeper] at hopened
    refine ⟨opened, number', ?_, ?_⟩
    · rw [← openAt_openAt (le_of_lt hdeeper) opened, hopened,
        openAt_cons_of_le le_rfl, openAt_openAt le_rfl]
    · rw [Sketch.lines, List.cons_append, readLines, readLine_render ht.1]
      simp only
      rw [hread, Forest.plant]
      simp only [parentAt, openAt_cons_of_lt hdeeper, List.head?_cons, Option.map_some,
        Option.getD_some]

/-- **Reading the lines of sketches puts them below the open instruction**, and leaves what was
open before them open. -/
theorem readLines_linesAll (root : InstructionId) :
    ∀ (ts : List Sketch) (depth : Nat) (st : Progress) (number : Nat) (rest : List (List Char)),
      Sketch.AllValid ts →
      ∃ opened number', openAt (4 * depth) opened = openAt (4 * depth) st.opened ∧
        readLines root st number (Sketch.linesAll depth ts ++ rest)
          = readLines root
              ⟨st.forest.plantAll (parentAt root (4 * depth) st.opened) ts, opened⟩ number' rest
  | [], depth, st, number, rest, _ => ⟨st.opened, number, rfl, by
      rw [Sketch.linesAll, List.nil_append, Forest.plantAll]⟩
  | t :: ts, depth, st, number, rest, hts => by
    rw [Sketch.AllValid] at hts
    obtain ⟨opened₁, number₁, hopened₁, hread₁⟩ := readLines_lines root t depth st number
      (Sketch.linesAll depth ts ++ rest) hts.1
    obtain ⟨opened₂, number₂, hopened₂, hread₂⟩ := readLines_linesAll root ts depth
      ⟨st.forest.plant (parentAt root (4 * depth) st.opened) t, opened₁⟩ number₁ rest hts.2
    refine ⟨opened₂, number₂, hopened₂.trans hopened₁, ?_⟩
    have hparent : parentAt root (4 * depth) opened₁ = parentAt root (4 * depth) st.opened := by
      rw [parentAt, hopened₁, parentAt]
    rw [Sketch.linesAll, List.append_assoc, hread₁, hread₂, Forest.plantAll, hparent]

end

theorem parse_eq (source : String) (f : Forest) : parse source f =
    let read := readLines f.size { forest := (f.add .root).2 } 1 (lines source.toList)
    (read.1, read.2.elim (.ok f.size) .error) := by
  rw [parse]
  simp only [Forest.add]
  split <;> next hread => rw [hread]; rfl

/-- Reading the outline of valid sketches into any forest gives a forest that holds them. -/
theorem parse_linesAll (h : Sketch.AllValid ts) (f : Forest) :
    ∃ g, parse (String.ofList (unlines (Sketch.linesAll 0 ts))) f = (g, .ok f.size) ∧
      g.HoldsBelow f.size ts := by
  have hlines : lines (unlines (Sketch.linesAll 0 ts)) = Sketch.linesAll 0 ts :=
    lines_unlines (fun l hl => (mem_linesAll_of_valid ts 0 h l hl).1)
      (fun l hl => (mem_linesAll_of_valid ts 0 h l hl).2)
  obtain ⟨opened, number, -, hread⟩ :=
    readLines_linesAll f.size ts 0 { forest := (f.add .root).2 } 1 [] h
  have hroot : f.size < (f.add .root).2.size := by
    rw [Forest.size_add]
    exact Nat.lt_succ_self _
  obtain ⟨ids, hplanted, hholds⟩ := holdsAll_plantAll ts (f.add .root).2 hroot
  refine ⟨(f.add .root).2.plantAll f.size ts, ?_, ?_, ?_⟩
  · rw [List.append_nil] at hread
    rw [parse_eq, String.toList_ofList, hlines, hread]
    rfl
  · exact lt_of_lt_of_le hroot hplanted.size_le
  · rw [hplanted.at_parent, get_add_size]
    exact hholds

/-! ## What any text is read as -/

/-- The instructions from `root` on stand in the order of a walk through the tree below it, and
those below it have valid wordings. -/
structure WellRead (root : InstructionId) (f : Forest) : Prop where
  root_lt : root < f.size
  later : ∀ id, root ≤ id → id < f.size → ∀ c ∈ (f.get id).children, id < c ∧ c < f.size
  valid : ∀ id, root < id → id < f.size → (f.get id).wording.Valid

/-- Adding a valid instruction below one that was read keeps that. -/
theorem WellRead.addChild {parent : InstructionId} (h : WellRead root f) (hp : root ≤ parent)
    (hlt : parent < f.size) (hi : i.wording.Valid)
    (hchildren : i.children = []) : WellRead root (f.addChild parent i).2 := by
  have hsize := size_addChild f parent i
  have hroot := h.root_lt
  refine ⟨by grind, ?_, ?_⟩
  · intro id hid hidlt c hc
    rw [hsize] at hidlt ⊢
    by_cases hnew : id = f.size
    · rw [hnew, get_addChild_size f hlt, hchildren] at hc
      cases hc
    · have hold : id < f.size := by grind
      by_cases hparent : id = parent
      · rw [hparent, get_addChild_parent f hlt, List.mem_append] at hc
        rcases hc with hc | hc
        · have := h.later parent hp hlt c hc
          grind
        · rw [List.mem_singleton.mp hc]
          grind
      · rw [get_addChild_of_ne f hold hparent] at hc
        have := h.later id hid hold c hc
        grind
  · intro id hid hidlt
    by_cases hnew : id = f.size
    · rw [hnew, get_addChild_size f hlt]
      exact hi
    · have hold : id < f.size := by grind
      by_cases hparent : id = parent
      · rw [hparent, get_addChild_parent f hlt]
        exact h.valid parent (by grind) hlt
      · rw [get_addChild_of_ne f hold hparent]
        exact h.valid id hid hold

/-- What was read so far is well read, and the open instructions are among it. -/
structure Progress.Sound (root : InstructionId) (st : Progress) : Prop where
  read : WellRead root st.forest
  opened : ∀ entry ∈ st.opened, root < entry.2 ∧ entry.2 < st.forest.size

theorem Progress.Sound.parentAt_lt (h : st.Sound root)
    (indent : Nat) : root ≤ parentAt root indent st.opened ∧
      parentAt root indent st.opened < st.forest.size := by
  rw [parentAt]
  cases hop : openAt indent st.opened with
  | nil => exact ⟨le_rfl, h.read.root_lt⟩
  | cons entry rest =>
    have hmem : entry ∈ st.opened :=
      (List.dropWhile_suffix _).mem (by rw [← openAt, hop]; exact .head _)
    exact ⟨le_of_lt (h.opened entry hmem).1, (h.opened entry hmem).2⟩

theorem valid_of_parse_trim (hn : '\n' ∉ raw) (hs : ¬isSilent (trim raw) = true)
    (h : Line.parse (trim raw) = .ok i) : i.wording.Valid ∧ i.children = [] := by
  rw [isSilent, Bool.or_eq_true, not_or] at hs
  obtain ⟨hvalid, hbare⟩ := Line.valid_of_parse (trim_flush raw) (by simpa using hs.1)
    (by simpa using hs.2) (fun hmem => hn (mem_of_mem_trim hmem)) h
  exact ⟨hvalid, by rw [hbare]; rfl⟩

/-- A line that says something becomes a child of the innermost open line that is less indented, and is
open itself then. -/
theorem readLine_of_spoken (root : InstructionId) (st : Progress) (h : isSilent (trim raw) = false) :
    readLine root st raw = (Line.parse (trim raw)).map fun i =>
      { forest := (st.forest.addChild (parentAt root (columns raw) st.opened) i).2
        opened := (columns raw, st.forest.size) :: openAt (columns raw) st.opened } := by
  unfold readLine
  simp only [h]
  cases Line.parse (trim raw) <;> rfl

/-- What reading one line does: nothing, or it adds a valid instruction below one that was read,
which is then open. -/
theorem readLine_cases (h : st.Sound root) (hn : '\n' ∉ raw) (hr : readLine root st raw = .ok st') :
    st' = st ∨ ∃ parent i, root ≤ parent ∧ parent < st.forest.size ∧ i.wording.Valid ∧
      i.children = [] ∧ st'.forest = (st.forest.addChild parent i).2 ∧
      ∀ entry ∈ st'.opened, entry.2 = st.forest.size ∨ entry ∈ st.opened := by
  by_cases hs : isSilent (trim raw) = true
  · rw [readLine, if_pos hs] at hr
    cases hr
    exact .inl rfl
  · rw [readLine_of_spoken _ _ (Bool.eq_false_iff.mpr hs)] at hr
    cases hline : Line.parse (trim raw) with
    | error fault =>
      rw [hline] at hr
      cases hr
    | ok i =>
      rw [hline] at hr
      cases hr
      obtain ⟨hvalid, hchildren⟩ := valid_of_parse_trim hn hs hline
      have hparent := h.parentAt_lt (columns raw)
      refine .inr ⟨_, i, hparent.1, hparent.2, hvalid, hchildren, rfl, ?_⟩
      intro entry hentry
      rcases List.mem_cons.mp hentry with rfl | hentry
      · exact .inl rfl
      · exact .inr ((List.dropWhile_suffix _).mem hentry)

theorem Progress.Sound.readLine (h : st.Sound root) (hn : '\n' ∉ raw)
    (hr : Outline.readLine root st raw = .ok st') :
    st'.Sound root := by
  rcases readLine_cases h hn hr with rfl | ⟨parent, i, hlo, hhi, hvalid, hbare, hforest, hopened⟩
  · exact h
  · have hsize := size_addChild st.forest parent i
    rw [← hforest] at hsize
    refine ⟨hforest ▸ h.read.addChild hlo hhi hvalid hbare, fun entry hentry => ?_⟩
    rw [hsize]
    rcases hopened entry hentry with hnew | hold
    · rw [hnew]
      exact ⟨h.read.root_lt, Nat.lt_succ_self _⟩
    · exact ⟨(h.opened entry hold).1, Nat.lt_succ_of_lt (h.opened entry hold).2⟩

/-- What one more instruction keeps, a run over lines keeps. -/
theorem Progress.Sound.readLines {I : Forest → Prop} {ls : List (List Char)} (hn : ∀ l ∈ ls, '\n' ∉ l)
    (h : st.Sound root) (hI : I st.forest)
    (hstep : ∀ {f : Forest} {parent : InstructionId} {i : Instruction}, I f → root ≤ parent → parent < f.size →
      i.wording.Valid → i.children = [] → I (f.addChild parent i).2) (number : Nat) :
    I (Outline.readLines root st number ls).1 := by
  induction ls generalizing st number with
  | nil => exact hI
  | cons raw rest ih =>
    have hraw := hn raw (.head _)
    rw [Outline.readLines]
    split
    · next st' hr =>
      refine ih (fun l hl => hn l (.tail _ hl)) (h.readLine hraw hr) ?_ (number + 1)
      rcases readLine_cases h hraw hr with rfl | ⟨parent, i, hlo, hhi, hvalid, hbare, hforest, -⟩
      · exact hI
      · exact hforest ▸ hstep hI hlo hhi hvalid hbare
    · exact hI

theorem Progress.Sound.start (f : Forest) :
    Progress.Sound f.size { forest := (f.add .root).2 } := by
  have hsize : (f.add .root).2.size = f.size + 1 := Forest.size_add f .root
  refine ⟨⟨by grind, ?_, ?_⟩, by simp⟩
  · intro id hid hlt c hc
    have hroot : id = f.size := by grind
    rw [hroot, get_add_size] at hc
    cases hc
  · intro id hid hlt
    grind

/-- What holds of the root and is kept by each instruction holds of an outline that is read, also if a
line cannot be read. -/
theorem parse_keeps {I : Forest → Prop} (source : String) {f : Forest} (hroot : I (f.add .root).2)
    (hstep : ∀ {g : Forest} {parent : InstructionId} {i : Instruction}, I g → f.size ≤ parent → parent < g.size →
      i.wording.Valid → i.children = [] → I (g.addChild parent i).2) : I (parse source f).1 := by
  rw [parse_eq]
  exact (Progress.Sound.start f).readLines (fun l hl => newline_not_mem_of_mem_lines hl) hroot hstep 1

theorem WellRead.of_parse (source : String) (f : Forest) : WellRead f.size (parse source f).1 :=
  parse_keeps source (Progress.Sound.start f).read WellRead.addChild

theorem root_of_parse (h : parse source f = (g, .ok root)) : root = f.size := by
  simp only [parse, Forest.add] at h
  split at h <;> cases h
  rfl

/-- From what is well read sketches can be taken: children come later, so a walk down ends. -/
theorem WellRead.exists_sketches (h : WellRead root f) :
    ∀ (left : Nat) (ids : List InstructionId),
      (∀ id ∈ ids, root < id ∧ id < f.size ∧ f.size - id ≤ left) →
      ∃ ts, f.HoldsAll ids ts ∧ Sketch.AllValid ts := by
  intro left
  -- the outer induction goes down a level, the inner one along the siblings
  induction left with
  | zero =>
    intro ids hids
    cases ids with
    | nil => exact ⟨[], by simp [Forest.HoldsAll], by simp [Sketch.AllValid]⟩
    | cons id ids =>
      have := hids id (.head _)
      grind
  | succ left ih =>
    intro ids
    induction ids with
    | nil => exact fun _ => ⟨[], by simp [Forest.HoldsAll], by simp [Sketch.AllValid]⟩
    | cons id ids ihs =>
      intro hids
      obtain ⟨hid, hlt, hleft⟩ := hids id (.head _)
      have hlater := h.later id (le_of_lt hid) hlt
      obtain ⟨children, hchildren, hvalid⟩ := ih (f.get id).children fun c hc => by
        have := hlater c hc
        grind
      obtain ⟨ts, hts, hvalids⟩ := ihs fun c hc => hids c (.tail _ hc)
      refine ⟨.node (f.get id).wording children :: ts, ?_, ?_⟩
      · rw [Forest.HoldsAll, Forest.Holds]
        exact ⟨⟨hlt, rfl, hchildren⟩, hts⟩
      · rw [Sketch.AllValid, Sketch.Valid]
        exact ⟨⟨h.valid id hid hlt, hvalid⟩, hvalids⟩

/-- **Whatever text is read, the forest holds valid sketches below the new root.** -/
theorem holdsBelow_of_parse (h : parse source f = (g, .ok root)) :
    ∃ ts, g.HoldsBelow root ts ∧ Sketch.AllValid ts := by
  have hread := WellRead.of_parse source f
  rw [h, ← root_of_parse h] at hread
  obtain ⟨ts, hts, hvalid⟩ := hread.exists_sketches g.size (g.get root).children fun c hc => by
    obtain ⟨hlo, hhi⟩ := hread.later root le_rfl hread.root_lt c hc
    exact ⟨hlo, hhi, Nat.sub_le _ _⟩
  exact ⟨ts, ⟨hread.root_lt, hts⟩, hvalid⟩

theorem parse_render_of_holds (h : f.HoldsBelow root ts) (hv : Sketch.AllValid ts) :
    ∃ g r, parse (render f root) {} = (g, .ok r) ∧ g.HoldsBelow r ts := by
  obtain ⟨g, hg, hholds⟩ := parse_linesAll hv {}
  refine ⟨g, _, ?_, hholds⟩
  rw [render_eq_of_holds h, hg]

/-- **Reading and writing outlines agree on exactly the valid sketches.** Every text that is read
gives valid sketches; the outline of valid sketches, whatever forest they stand in, is read back as
the same sketches; so to write, read and write again what was read gives the same text. -/
theorem parse_render_agree :
    (∀ (source : String) (f g : Forest) (root : InstructionId),
      parse source f = (g, .ok root) → ∃ ts, g.HoldsBelow root ts ∧ Sketch.AllValid ts) ∧
    (∀ (f : Forest) (root : InstructionId) (ts : List Sketch),
      f.HoldsBelow root ts → Sketch.AllValid ts →
        ∃ g r, parse (render f root) {} = (g, .ok r) ∧ g.HoldsBelow r ts) ∧
    (∀ (source : String) (f g : Forest) (root : InstructionId),
      parse source f = (g, .ok root) →
        ∃ g' r, parse (render g root) {} = (g', .ok r) ∧ render g' r = render g root) := by
  refine ⟨fun _ _ _ _ h => holdsBelow_of_parse h, fun _ _ _ h hv => parse_render_of_holds h hv, ?_⟩
  intro source f g root h
  obtain ⟨ts, hts, hv⟩ := holdsBelow_of_parse h
  obtain ⟨g', r, hparse, hholds⟩ := parse_render_of_holds hts hv
  exact ⟨g', r, hparse, by rw [render_eq_of_holds hholds, render_eq_of_holds hts]⟩

/-- A text with a literal that holds blanks and an escaped quote, an empty name before a type, a
setting without a value and one with an empty value, a tab, a comment and a blank line. -/
theorem parse_render_agree_literals :
    let source := "call 'a \\' b' @k @l=\n\tvalue : ::\n# note\n\n  x\ny"
    parse source {} = ((parse source {}).1, .ok 0) ∧
      (∃ ts, (parse source {}).1.HoldsBelow 0 ts ∧ Sketch.AllValid ts) ∧
      ∃ g r, parse (render (parse source {}).1 0) {} = (g, .ok r) ∧
        render g r = render (parse source {}).1 0 := by
  intro source
  have h : parse source {} = ((parse source {}).1, .ok 0) := Prod.ext rfl (by decide +kernel)
  exact ⟨h, parse_render_agree.1 _ _ _ _ h, parse_render_agree.2.2 _ _ _ _ h⟩

end Outline

end LightHeaders
