import LightHeaders.Proofs.LoadRecursion

set_option autoImplicit false

/-! # One source in two forests

A source gets the next free numbers of the forest that it is read into. Which numbers these are makes
no other difference: read into two forests it gives the same instructions, each as far behind the root
in the one as in the other (`Forest.Copied`), or it cannot be read into either
(`Language.copied_read`). The trees below the two roots are then the same but for the numbers
(`Forest.Copied.body_eq`).
-/

namespace LightHeaders

open Text Outline

/-! ## Numbers -/

/-- Numbers from `m` on are counted from `n` on instead; those below `m` stay. -/
def renumber (m n k : Nat) : Nat := if k < m then k else n + (k - m)

section renumber

variable {m n k : Nat}

theorem renumber_of_lt (h : k < m) : renumber m n k = k := if_pos h

theorem renumber_of_le (h : m ≤ k) : renumber m n k = n + (k - m) := if_neg (Nat.not_lt.mpr h)

@[simp] theorem renumber_self (m n : Nat) : renumber m n m = n := by
  rw [renumber_of_le (Nat.le_refl m), Nat.sub_self, Nat.add_zero]

theorem le_renumber (h : m ≤ k) : n ≤ renumber m n k := by
  rw [renumber_of_le h]
  exact Nat.le_add_right n _

theorem renumber_injective (h : m ≤ n) : Function.Injective (renumber m n) := by
  intro a b hab
  simp only [renumber] at hab
  split at hab <;> split at hab <;> omega

end renumber

/-- The instruction with its children renumbered. -/
def Instruction.renumber (m n : Nat) (i : Instruction) : Instruction :=
  { i with children := i.children.map (LightHeaders.renumber m n) }

theorem Instruction.renumber_of_children {i : Instruction} (h : i.children = []) (m n : Nat) :
    i.renumber m n = i := by
  rw [renumber, h, List.map_nil, ← h]

namespace InstructionTree

mutual

/-- The tree with its instructions renumbered. -/
def renumber (m n : Nat) : InstructionTree → InstructionTree
  | .node id head children =>
    .node (LightHeaders.renumber m n id) (head.renumber m n) (renumberAll m n children)

/-- The trees with their instructions renumbered. -/
def renumberAll (m n : Nat) : List InstructionTree → List InstructionTree
  | [] => []
  | t :: ts => t.renumber m n :: renumberAll m n ts

end

theorem renumberAll_eq_map (m n : Nat) (ts : List InstructionTree) :
    renumberAll m n ts = ts.map (renumber m n) := by
  induction ts with
  | nil => rfl
  | cons t ts ih => rw [renumberAll, ih, List.map_cons]

end InstructionTree

/-! ## Forests -/

/-- What `f` has from `m` on, `g` has from `n` on. -/
structure Forest.Copied (m n : Nat) (f g : Forest) : Prop where
  size : ∃ k, f.size = m + k ∧ g.size = n + k
  get : ∀ id, m ≤ id → g.get (renumber m n id) = (f.get id).renumber m n

namespace Forest.Copied

variable {m n : Nat} {f g : Forest}

theorem size_eq (h : f.Copied m n g) : g.size = renumber m n f.size := by
  obtain ⟨k, hf, hg⟩ := h.size
  rw [renumber_of_le (by omega)]
  omega

theorem le_size (h : f.Copied m n g) : m ≤ f.size := by
  obtain ⟨k, hf, -⟩ := h.size
  omega

theorem start (f g : Forest) : f.Copied f.size g.size g where
  size := ⟨0, rfl, rfl⟩
  get id hid := by
    have hnone : ∀ (f : Forest) {id : InstructionId}, f.size ≤ id → f.get id = default := by
      intro f id hle
      unfold Forest.size at hle
      simp [Forest.get, Nat.not_lt.mpr hle]
    rw [hnone f hid, hnone g (le_renumber hid)]
    rfl

theorem renumber_eq_iff {a b : Nat} (ha : m ≤ a) (hb : m ≤ b) :
    renumber m n a = renumber m n b ↔ a = b := by
  rw [renumber_of_le ha, renumber_of_le hb]
  omega

variable {i : Instruction}

theorem add (h : f.Copied m n g) {i : Instruction} (hi : i.children = []) :
    (f.add i).2.Copied m n (g.add i).2 where
  size := by
    obtain ⟨k, hf, hg⟩ := h.size
    exact ⟨k + 1, by rw [size_add, hf, Nat.add_assoc], by rw [size_add, hg, Nat.add_assoc]⟩
  get id hid := by
    simp only [get_add, h.size_eq, renumber_eq_iff hid h.le_size]
    split
    · rw [Instruction.renumber_of_children hi]
    · exact h.get id hid

theorem addChild (h : f.Copied m n g) {parent : Nat} (hm : m ≤ parent) (hlt : parent < f.size)
    (hi : i.children = []) :
    (f.addChild parent i).2.Copied m n (g.addChild (renumber m n parent) i).2 where
  size := by
    obtain ⟨k, hf, hg⟩ := (h.add hi).size
    exact ⟨k, by rw [size_addChild, ← hf, size_add], by rw [size_addChild, ← hg, size_add]⟩
  get id hid := by
    have hlt' : renumber m n parent < g.size := by
      obtain ⟨k, hf, hg⟩ := h.size
      rw [renumber_of_le hm]
      omega
    have hold := (h.add hi).get id hid
    show (((g.add i).2.modify _ _).get _) = (((f.add i).2.modify _ _).get _).renumber m n
    simp only [get_modify_eq, renumber_eq_iff hid hm, size_add, Nat.lt_succ_of_lt hlt,
      Nat.lt_succ_of_lt hlt', and_true]
    split
    · rw [hold]
      simp [Instruction.renumber, h.size_eq, Forest.add]
    · exact hold

/-! ### Trees -/

/-- **The trees are the same but for the numbers.** -/
theorem tree_eq (h : f.Copied m n g) (hf : f.Sound) (hg : g.Sound) {id : Nat}
    (hid : m ≤ id) : g.tree (renumber m n id) = (f.tree id).renumber m n := by
  -- children come later, so the induction is on what is left of the forest
  generalize hleft : f.size - id = left
  induction left using Nat.strong_induction_on generalizing id with
  | _ left ih =>
    rw [hg.tree_eq, hf.tree_eq, InstructionTree.renumber, InstructionTree.renumberAll_eq_map,
      h.get id hid, List.map_map]
    congr 1
    rw [Instruction.renumber, List.map_map]
    refine List.map_congr_left fun c hc => ?_
    have hlater := Nat.succ_le_of_lt (hf.later hc).1
    have hlt := Nat.succ_le_of_lt (hf.later hc).2
    exact ih (f.size - c) (by omega) (by omega) rfl

theorem body_eq (h : f.Copied m n g) (hf : f.Sound) (hg : g.Sound) :
    g.body n = InstructionTree.renumberAll m n (f.body m) := by
  have htree := h.tree_eq hf hg (Nat.le_refl m)
  rw [renumber_self] at htree
  rw [Forest.body, Forest.body, htree]
  cases f.tree m
  rfl

end Forest.Copied

/-! ## Outlines -/

namespace Outline

/-- Two readings of the same lines. -/
structure Progress.Copied (m n : Nat) (st st' : Progress) : Prop where
  forest : st.forest.Copied m n st'.forest
  opened : st'.opened = st.opened.map fun entry => (entry.1, renumber m n entry.2)
  sound : st.Sound m

variable {m n : Nat} {st st' : Progress}

theorem Progress.Copied.openAt_eq (h : st.Copied m n st') (indent : Nat) :
    openAt indent st'.opened =
      (openAt indent st.opened).map fun entry => (entry.1, renumber m n entry.2) := by
  rw [openAt, openAt, h.opened, List.dropWhile_map]
  rfl

theorem Progress.Copied.parentAt_eq (h : st.Copied m n st') (indent : Nat) :
    parentAt n indent st'.opened = renumber m n (parentAt m indent st.opened) := by
  rw [parentAt, parentAt, h.openAt_eq]
  cases openAt indent st.opened with
  | nil => exact (renumber_self m n).symm
  | cons entry rest => rfl

/-- One line is read into both forests, or into neither. -/
theorem Progress.Copied.readLine (h : st.Copied m n st') {raw : List Char} (hn : '\n' ∉ raw) :
    match Outline.readLine m st raw, Outline.readLine n st' raw with
    | .ok next, .ok next' => next.Copied m n next'
    | .error fault, .error fault' => fault = fault'
    | _, _ => False := by
  have hsound : ∀ next, Outline.readLine m st raw = .ok next → next.Sound m :=
    fun _ => h.sound.readLine hn
  by_cases hsilent : isSilent (trim raw) = true
  · rw [Outline.readLine, Outline.readLine, if_pos hsilent, if_pos hsilent]
    exact h
  · have hspoken := Bool.eq_false_iff.mpr hsilent
    rw [readLine_of_spoken _ _ hspoken] at hsound
    rw [readLine_of_spoken _ _ hspoken, readLine_of_spoken _ _ hspoken]
    cases hparse : Line.parse (trim raw) with
    | error fault => exact rfl
    | ok node =>
      obtain ⟨hle, hlt⟩ := h.sound.parentAt_lt (columns raw)
      refine ⟨?_, ?_, hsound _ (by rw [hparse]; rfl)⟩
      · rw [h.parentAt_eq]
        exact h.forest.addChild hle hlt (valid_of_parse_trim hn hsilent hparse).2
      · simp only [List.map_cons, h.openAt_eq, h.forest.size_eq]

/-- **Lines are read into both forests**, up to the same line. -/
theorem Progress.Copied.readLines {ls : List (List Char)} (hn : ∀ l ∈ ls, '\n' ∉ l) (h : st.Copied m n st')
    (number : Nat) :
    (Outline.readLines m st number ls).1.Copied m n (Outline.readLines n st' number ls).1 ∧
      (Outline.readLines n st' number ls).2 = (Outline.readLines m st number ls).2 := by
  induction ls generalizing st st' number with
  | nil => exact ⟨h.forest, rfl⟩
  | cons raw rest ih =>
    have hstep := h.readLine (hn raw (.head _))
    rw [Outline.readLines, Outline.readLines]
    cases hnext : Outline.readLine m st raw with
    | error fault =>
      cases hnext' : Outline.readLine n st' raw with
      | error fault' =>
        rw [hnext, hnext'] at hstep
        exact ⟨h.forest, by rw [show fault = fault' from hstep]⟩
      | ok next' =>
        rw [hnext, hnext'] at hstep
        exact hstep.elim
    | ok next =>
      cases hnext' : Outline.readLine n st' raw with
      | error fault' =>
        rw [hnext, hnext'] at hstep
        exact hstep.elim
      | ok next' =>
        rw [hnext, hnext'] at hstep
        exact ih (fun l hl => hn l (.tail _ hl)) hstep (number + 1)

theorem copied_parse (source : String) (f g : Forest) :
    (parse source f).1.Copied f.size g.size (parse source g).1 ∧
      (parse source g).2 = (parse source f).2.map (renumber f.size g.size) := by
  have hlines : ∀ l ∈ lines source.toList, '\n' ∉ l := fun l hl => newline_not_mem_of_mem_lines hl
  have hstart : Progress.Copied f.size g.size
      { forest := (f.add .root).2 } { forest := (g.add .root).2 } :=
    ⟨(Forest.Copied.start f g).add rfl, rfl, Progress.Sound.start f⟩
  obtain ⟨hcopied, herror⟩ := hstart.readLines hlines 1
  rw [parse_eq, parse_eq]
  dsimp only
  rw [herror]
  refine ⟨hcopied, ?_⟩
  cases (readLines f.size { forest := (f.add .root).2 } 1 (lines source.toList)).2 with
  | none => exact congrArg Except.ok (renumber_self f.size g.size).symm
  | some e => rfl

end Outline

/-! ## Headers -/

section Headers

variable {m n : Nat} {f g : Forest}

theorem Prototype.copied_addTo (p : Prototype) (h : f.Copied m n g) (hlt : m < f.size) :
    (p.addTo m f).Copied m n (p.addTo n g) ∧ m < (p.addTo m f).size := by
  have hfunction := h.addChild (Nat.le_refl m) hlt
    (i := { op := "function", name := p.name, type? := some p.result }) rfl
  rw [renumber_self] at hfunction
  have hparams : (p.addTo m f).Copied m n (p.addTo n g) ∧ f.size < (p.addTo m f).size := by
    refine List.foldl_rel (r := fun f' g' : Forest => f'.Copied m n g' ∧ f.size < f'.size)
      ⟨hfunction, f.size_lt_addChild m _⟩ ?_
    rintro param - f' g' ⟨hcopied, hlt'⟩
    have hnext := hcopied.addChild h.le_size hlt'
      (i := { op := "param", name := param.1, type? := some param.2 }) rfl
    rw [← h.size_eq] at hnext
    exact ⟨hnext, lt_trans hlt' (f'.size_lt_addChild _ _)⟩
  exact ⟨hparams.1, lt_trans hlt hparams.2⟩

theorem Header.copied_read (source : String) (f g : Forest) :
    (Header.read source f).1.Copied f.size g.size (Header.read source g).1 := by
  refine (List.foldl_rel (r := fun f' g' : Forest => f'.Copied f.size g.size g' ∧ f.size < f'.size) ?_ ?_).1
  · exact ⟨(Forest.Copied.start f g).add rfl, f.size_lt_add .root⟩
  · rintro p - f' g' ⟨h, hlt⟩
    exact p.copied_addTo h hlt

end Headers

/-! ## Sources -/

/-- **A source is read alike into any two forests.** -/
theorem Language.copied_read (language : Language) (source : String) (f g : Forest) :
    (language.read source f).1.Copied f.size g.size (language.read source g).1 ∧
      (language.read source g).2 = (language.read source f).2.map (renumber f.size g.size) := by
  cases language with
  | cpp => exact ⟨Header.copied_read source f g, congrArg some (renumber_self f.size g.size).symm⟩
  | light =>
    obtain ⟨hcopied, hroot⟩ := copied_parse source f g
    refine ⟨hcopied, ?_⟩
    rw [Language.read, Language.read, hroot]
    cases (parse source f).2 <;> rfl

end LightHeaders
