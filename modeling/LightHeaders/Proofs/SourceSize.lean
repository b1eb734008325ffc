import LightHeaders.Proofs.Loading
import Mathlib.Algebra.GroupWithZero.Nat

set_option autoImplicit false

/-! # How many instructions a source has

A source of `n` characters has at most `n + 1` instructions below its root, in either language
(`Language.size_read_le`). An outline has one for each line. A prototype has one for itself and one for each
parameter, and no more of them than its text has characters: between the parentheses there is at most
one parameter more than there are commas.
-/

namespace LightHeaders

namespace Text

theorem sum_length_splitAt (sep : Char) (cs : List Char) :
    ((splitAt sep cs).map (·.length + 1)).sum = cs.length + 1 := by
  induction cs with
  | nil => rfl
  | cons c cs ih =>
    rw [splitAt]
    by_cases hc : c = sep
    · rw [if_pos hc, List.map_cons, List.sum_cons, ih, List.length_nil, List.length_cons]
      omega
    · rw [if_neg hc]
      cases hs : splitAt sep cs with
      | nil => exact absurd hs (splitAt_ne_nil sep cs)
      | cons piece pieces =>
        rw [hs, List.map_cons, List.sum_cons] at ih
        simp only [List.map_cons, List.sum_cons, List.length_cons]
        omega

theorem length_le_sum (ls : List (List Char)) : ls.length ≤ (ls.map (·.length + 1)).sum := by
  induction ls with
  | nil => exact Nat.le_refl 0
  | cons l ls ih =>
    rw [List.map_cons, List.sum_cons, List.length_cons]
    omega

theorem length_splitAt_le (sep : Char) (cs : List Char) : (splitAt sep cs).length ≤ cs.length + 1 := by
  have h := length_le_sum (splitAt sep cs)
  rwa [sum_length_splitAt] at h

theorem length_dropReturn_le (line : List Char) : (dropReturn line).length ≤ line.length := by
  unfold dropReturn
  split
  · simp
  · exact le_rfl

theorem sum_length_linesOfPieces_le (ps : List (List Char)) :
    ((linesOfPieces ps).map (·.length + 1)).sum ≤ (ps.map (·.length + 1)).sum := by
  fun_induction linesOfPieces ps with
  | case1 => exact Nat.le_refl 0
  | case2 rest => exact Nat.zero_le _
  | case3 rest => exact le_rfl
  | case4 line next ps ih =>
    have hline := length_dropReturn_le line
    rw [List.map_cons, List.sum_cons, List.map_cons, List.sum_cons]
    omega

theorem sum_length_lines_le (cs : List Char) :
    ((lines cs).map (·.length + 1)).sum ≤ cs.length + 1 := by
  rw [← sum_length_splitAt '\n' cs]
  exact sum_length_linesOfPieces_le _

end Text

open Text

/-! ## Outlines -/

namespace Outline

theorem size_readLines_le (root : InstructionId) (ls : List (List Char)) (st : Progress)
    (number : Nat) : (readLines root st number ls).1.size ≤ st.forest.size + ls.length := by
  induction ls generalizing st number with
  | nil => exact le_rfl
  | cons raw rest ih =>
    rw [readLines, List.length_cons]
    split
    · next st' hline =>
      have hstep : st'.forest.size ≤ st.forest.size + 1 := by
        by_cases hs : isSilent (trim raw) = true
        · rw [readLine, if_pos hs] at hline
          cases hline
          exact Nat.le_succ _
        · rw [readLine_of_spoken _ _ (Bool.eq_false_iff.mpr hs)] at hline
          cases hparse : Line.parse (trim raw) with
          | error fault =>
            rw [hparse] at hline
            cases hline
          | ok node =>
            rw [hparse] at hline
            cases hline
            exact le_of_eq (Forest.size_addChild ..)
      have hrest := ih st' (number + 1)
      omega
    · exact Nat.le_add_right _ _

theorem size_parse_le (source : String) (f : Forest) :
    (parse source f).1.size ≤ f.size + 1 + (source.length + 1) := by
  have hread := size_readLines_le f.size (lines source.toList) { forest := (f.add .root).2 } 1
  have hlines := le_trans (length_le_sum _) (sum_length_lines_le source.toList)
  have hsize : (parse source f).1 =
      (readLines f.size { forest := (f.add .root).2 } 1 (lines source.toList)).1 := by
    rw [parse_eq]
  rw [Forest.size_add] at hread
  rw [String.length_toList] at hlines
  rw [hsize]
  omega

end Outline

/-! ## Headers -/

namespace Prototype

theorem length_of_parseParams? {index : Nat} {ls : List (List Char)} {params : List (String × String)}
    (h : parseParams? index ls = some params) :
    params.length = ls.length := by
  induction ls generalizing index params with
  | nil =>
    cases h
    rfl
  | cons cs rest ih =>
    rw [parseParams?] at h
    obtain ⟨param, -, h⟩ := Option.bind_eq_some_iff.mp h
    obtain ⟨others, hothers, h⟩ := Option.bind_eq_some_iff.mp h
    cases h
    rw [List.length_cons, List.length_cons, ih hothers]

theorem length_params_lt {declaration : List Char} {p : Prototype}
    (h : parse? declaration = some p) : p.params.length < declaration.length := by
  obtain ⟨front, inner, tail, rfl, -, hparams⟩ := exists_of_parse? h
  simp only [List.length_append, List.length_cons]
  rcases hparams with hnil | hparams
  · rw [hnil, List.length_nil]
    omega
  · have hlength := length_of_parseParams? hparams
    have hpieces := length_splitAt_le ',' (trim inner)
    have htrim := (trim_sublist inner).length_le
    omega

theorem size_addTo (p : Prototype) (root : InstructionId) (f : Forest) :
    (p.addTo root f).size = f.size + (p.params.length + 1) := by
  have hparams : ∀ (params : List (String × String)) (g : Forest) (function : InstructionId),
      (params.foldl (fun f param =>
        (f.addChild function { op := "param", name := param.1, type? := some param.2 }).2) g).size =
        g.size + params.length := by
    intro params
    induction params with
    | nil => exact fun _ _ => rfl
    | cons param params ih =>
      intro g function
      rw [List.foldl_cons, ih, Forest.size_addChild, List.length_cons]
      omega
  have h := hparams p.params
    (f.addChild root { op := "function", name := p.name, type? := some p.result }).2 f.size
  rw [Forest.size_addChild] at h
  exact h.trans (by omega)

end Prototype

namespace Header

theorem length_code_le (inComment : Bool) (ls : List (List Char)) :
    (code inComment ls).length ≤ (ls.map (·.length + 1)).sum := by
  induction ls generalizing inComment with
  | nil => exact Nat.le_refl 0
  | cons raw rest ih =>
    rw [code, List.map_cons, List.sum_cons]
    dsimp only
    split
    · exact le_trans (ih true) (Nat.le_add_left _ _)
    · next line hl =>
      split
      · exact le_trans (ih false) (Nat.le_add_left _ _)
      · have hfront := ((codeOf_sublist line).trans (sublist_of_uncommented hl)).length_le
        have hrest := ih (codeOf line).2
        rw [List.length_append, List.length_cons]
        omega

theorem sum_length_declarations_le (source : String) :
    ((declarations source).map List.length).sum ≤ source.length + 1 := by
  -- what stands behind the last semicolon is left out
  have htrim : ∀ ps : List (List Char), ps ≠ [] →
      ((ps.dropLast.map trim).map List.length).sum + 1 ≤ (ps.map (·.length + 1)).sum := by
    intro ps
    induction ps with
    | nil => exact fun h => absurd rfl h
    | cons p ps ih =>
      intro _
      have hp := (trim_sublist p).length_le
      cases ps with
      | nil => simp
      | cons q ps =>
        have hrest := ih (List.cons_ne_nil q ps)
        rw [List.dropLast_cons_cons, List.map_cons, List.map_cons, List.sum_cons, List.map_cons,
          List.sum_cons]
        omega
  have hpieces := htrim _ (splitAt_ne_nil ';' (code false (lines source.toList)))
  have hcode := length_code_le false (lines source.toList)
  have hlines := sum_length_lines_le source.toList
  rw [sum_length_splitAt] at hpieces
  rw [String.length_toList] at hlines
  rw [declarations]
  omega

theorem size_read_le (source : String) (f : Forest) :
    (read source f).1.size ≤ f.size + 1 + (source.length + 1) := by
  have hfold : ∀ (ds : List (List Char)) (g : Forest),
      ((ds.filterMap Prototype.parse?).foldl (fun f' p => p.addTo f.size f') g).size ≤
        g.size + (ds.map List.length).sum := by
    intro ds
    induction ds with
    | nil => exact fun g => le_rfl
    | cons d ds ih =>
      intro g
      rw [List.map_cons, List.sum_cons]
      cases hp : Prototype.parse? d with
      | none =>
        rw [List.filterMap_cons_none hp]
        have hrest := ih g
        omega
      | some p =>
        have hrest := ih (p.addTo f.size g)
        have hparams := Prototype.length_params_lt hp
        rw [Prototype.size_addTo] at hrest
        rw [List.filterMap_cons_some hp, List.foldl_cons]
        omega
  have hall := hfold (declarations source) (f.add .root).2
  have hsum := sum_length_declarations_le source
  rw [Forest.size_add] at hall
  show Forest.size (((declarations source).filterMap Prototype.parse?).foldl _ (f.add .root).2) ≤ _
  omega

end Header

/-! ## The body of a source -/

theorem length_le_sub_of_nodup {ids : List Nat} (hnodup : ids.Nodup) {lo hi : Nat}
    (h : ∀ x ∈ ids, lo ≤ x ∧ x < hi) : ids.length ≤ hi - lo := by
  have hsub : ids ⊆ List.range' lo (hi - lo) := fun x hx => by
    obtain ⟨hlo, hhi⟩ := h x hx
    exact List.mem_range'_1.mpr ⟨hlo, by omega⟩
  have hle := (hnodup.subperm hsub).length_le
  rwa [List.length_range'] at hle

/-- No instruction comes twice below a root, so there are no more of them than were added after it. -/
theorem Forest.Sound.length_body_lt {f : Forest} (hf : f.Sound) {root : InstructionId}
    (hroot : root < f.size) : (InstructionTree.nodesAll (f.body root)).length + root < f.size := by
  have hids : ∀ x ∈ (f.tree root).ids, root ≤ x ∧ x < f.size := by
    intro x hx
    obtain ⟨⟨y, i⟩, hy, rfl⟩ := List.mem_map.mp hx
    have hunder := (Forest.mem_nodes_treeWithin hy).1
    exact ⟨hunder.le hf, hunder.lt_size hf hroot⟩
  have hlength := length_le_sub_of_nodup (hf.nodup_ids f.size root) hids
  rw [InstructionTree.ids, List.length_map, show f.treeWithin f.size root = f.tree root from rfl,
    Build.nodes_tree, List.length_cons] at hlength
  omega

/-- **A source of `n` characters has at most `n + 1` instructions below its root.** -/
theorem Language.size_read_le (language : Language) (source : String) (f : Forest) :
    (language.read source f).1.size ≤ f.size + 1 + (source.length + 1) := by
  cases language with
  | cpp => exact Header.size_read_le source f
  | light => exact Outline.size_parse_le source f

end LightHeaders
