import Mathlib.Data.List.GetD
import Mathlib.Data.List.Sort
import Mathlib.Order.Monotone.Basic
import LightHeaders.Proofs.PathParts
import LightHeaders.Proofs.Sources

set_option autoImplicit false

/-! # Structure by indentation

The parent of a line of an outline is the nearest line before it that is less indented, or the root
if there is none (`Outline.Encloses`). Reading keeps a stack of the lines that can still get children
and takes from it those that are not less indented than the next line. What it takes off can never be
the nearest again: a line that would look past the next one is no deeper than that (`parentAt_opened`).

So a text is read as the lines that say something, each below the line that encloses it
(`Outline.ReadAs`). That leaves nothing open (`ReadAs.unique`), so texts whose indentations are in the
same order are read alike, whatever blank lines and comments stand between their lines
(`Outline.parse_by_indentation`).
-/

namespace LightHeaders

open Text Forest

namespace Outline

/-! ## The nearest line that is less indented -/

/-- The indentation of the line with the given number, counted from one. -/
def levelAt (levels : List Nat) (k : Nat) : Nat := levels.getD (k - 1) 0

/-- Line `p` is the nearest before line `k` that is less indented; the root, number zero, is if there
is no such line. -/
structure Encloses (levels : List Nat) (p k : Nat) : Prop where
  before : p < k
  there : k ≤ levels.length
  less : 0 < p → levelAt levels p < levelAt levels k
  nearest : ∀ j, p < j → j < k → levelAt levels k ≤ levelAt levels j

/-- The number of the last line that is indented less than `level`, if the lines so far have the given
indentations, the last line first; zero if there is none. -/
def lastBelow (level : Nat) : List Nat → Nat
  | [] => 0
  | last :: earlier => if last < level then earlier.length + 1 else lastBelow level earlier

variable {i : Instruction} {raw : List Char} {levels : List Nat} {k p : Nat} {st : Progress}
  {source : String}

theorem levelAt_append (more : List Nat) (hk : 0 < k)
    (h : k ≤ levels.length) : levelAt (levels ++ more) k = levelAt levels k :=
  List.getD_append _ _ _ _ (by omega)

theorem levelAt_concat (levels : List Nat) (level : Nat) :
    levelAt (levels ++ [level]) (levels.length + 1) = level := by
  simp [levelAt, List.getD_eq_getElem?_getD]

theorem lastBelow_reverse_concat (level : Nat) (levels : List Nat) (last : Nat) :
    lastBelow level (levels ++ [last]).reverse =
      if last < level then levels.length + 1 else lastBelow level levels.reverse := by
  rw [List.reverse_append, List.reverse_singleton, List.singleton_append, lastBelow, List.length_reverse]

/-- What the last line below a level is: it is below it, and no later one is. -/
theorem lastBelow_spec (level : Nat) (levels : List Nat) :
    lastBelow level levels.reverse ≤ levels.length ∧
      (0 < lastBelow level levels.reverse →
        levelAt levels (lastBelow level levels.reverse) < level) ∧
      ∀ j, lastBelow level levels.reverse < j → j ≤ levels.length → level ≤ levelAt levels j := by
  induction levels using List.reverseRecOn with
  | nil => simp [lastBelow]; omega
  | append_singleton levels last ih =>
    obtain ⟨hle, hless, hlater⟩ := ih
    rw [lastBelow_reverse_concat, List.length_append, List.length_singleton]
    split
    · next hlast =>
      refine ⟨le_rfl, fun _ => ?_, fun j hj hj' => absurd hj' (Nat.not_le.mpr hj)⟩
      rwa [levelAt_concat]
    · next hlast =>
      refine ⟨Nat.le_succ_of_le hle, fun hpos => ?_, fun j hj hj' => ?_⟩
      · rw [levelAt_append _ hpos hle]
        exact hless hpos
      · rcases Nat.lt_or_eq_of_le hj' with hlt | rfl
        · rw [levelAt_append _ (Nat.zero_lt_of_lt hj) (Nat.le_of_lt_succ hlt)]
          exact hlater j hj (Nat.le_of_lt_succ hlt)
        · rw [levelAt_concat]
          exact Nat.not_lt.mp hlast

theorem Encloses.unique {q : Nat} (hp : Encloses levels p k) (hq : Encloses levels q k) : p = q := by
  rcases Nat.lt_trichotomy p q with hlt | heq | hlt
  · have hle := hp.nearest q hlt hq.before
    have hless := hq.less (Nat.zero_lt_of_lt hlt)
    omega
  · exact heq
  · have hle := hq.nearest p hlt hp.before
    have hless := hp.less (Nat.zero_lt_of_lt hlt)
    omega

/-- The last line stands below the last line before it that is less indented. -/
theorem encloses_last (levels : List Nat) (level : Nat) :
    Encloses (levels ++ [level]) (lastBelow level levels.reverse) (levels.length + 1) := by
  obtain ⟨hle, hless, hlater⟩ := lastBelow_spec level levels
  refine ⟨Nat.lt_succ_of_le hle, by simp, fun hpos => ?_, fun j hj hj' => ?_⟩
  · rw [levelAt_concat, levelAt_append _ hpos hle]
    exact hless hpos
  · rw [levelAt_concat, levelAt_append _ (Nat.zero_lt_of_lt hj) (Nat.le_of_lt_succ hj')]
    exact hlater j hj (Nat.le_of_lt_succ hj')

theorem encloses_concat {level : Nat} :
    Encloses (levels ++ [level]) p k ↔
      Encloses levels p k ∨ k = levels.length + 1 ∧ p = lastBelow level levels.reverse := by
  have hold : k ≤ levels.length → (Encloses (levels ++ [level]) p k ↔ Encloses levels p k) := by
    intro hk
    have hlevel : ∀ j, 0 < j → j ≤ k → levelAt (levels ++ [level]) j = levelAt levels j :=
      fun j hj hjk => levelAt_append _ hj (le_trans hjk hk)
    constructor <;> intro h <;> have hlt := h.before
    · refine ⟨hlt, hk, fun hpos => ?_, fun j hj hjk => ?_⟩
      · rw [← hlevel p hpos (le_of_lt hlt), ← hlevel k (Nat.zero_lt_of_lt hlt) (Nat.le_refl k)]
        exact h.less hpos
      · rw [← hlevel j (Nat.zero_lt_of_lt hj) (le_of_lt hjk),
          ← hlevel k (Nat.zero_lt_of_lt hlt) (Nat.le_refl k)]
        exact h.nearest j hj hjk
    · refine ⟨hlt, by simp; omega, fun hpos => ?_, fun j hj hjk => ?_⟩
      · rw [hlevel p hpos (le_of_lt hlt), hlevel k (Nat.zero_lt_of_lt hlt) (Nat.le_refl k)]
        exact h.less hpos
      · rw [hlevel j (Nat.zero_lt_of_lt hj) (le_of_lt hjk),
          hlevel k (Nat.zero_lt_of_lt hlt) (Nat.le_refl k)]
        exact h.nearest j hj hjk
  constructor
  · intro h
    have hthere := h.there
    rw [List.length_append, List.length_singleton] at hthere
    rcases Nat.lt_or_eq_of_le hthere with hlt | rfl
    · exact .inl ((hold (Nat.le_of_lt_succ hlt)).mp h)
    · exact .inr ⟨rfl, h.unique (encloses_last levels level)⟩
  · rintro (h | ⟨rfl, rfl⟩)
    · exact (hold h.there).mpr h
    · exact encloses_last levels level

theorem exists_encloses (hk : 0 < k) (h : k ≤ levels.length) :
    ∃ p, Encloses levels p k := by
  induction levels using List.reverseRecOn with
  | nil => exact absurd h (Nat.not_le.mpr hk)
  | append_singleton levels level ih =>
    rw [List.length_append, List.length_singleton] at h
    rcases Nat.lt_or_eq_of_le h with hlt | rfl
    · obtain ⟨p, hp⟩ := ih (Nat.le_of_lt_succ hlt)
      exact ⟨p, encloses_concat.mpr (.inl hp)⟩
    · exact ⟨_, encloses_last levels level⟩

variable {φ : Nat → Nat} {g f : Forest} {ls : List (List Char)}

/-- Only the order of the indentations counts. -/
theorem encloses_map (hφ : StrictMonoOn φ {n | n ∈ levels}) :
    Encloses (levels.map φ) p k ↔ Encloses levels p k := by
  have hmem : ∀ j, 0 < j → j ≤ levels.length → levelAt levels j ∈ levels := by
    intro j hj hle
    rw [levelAt, List.getD_eq_getElem _ _ (by omega)]
    exact List.getElem_mem _
  have hlevel : ∀ j, 0 < j → j ≤ levels.length → levelAt (levels.map φ) j = φ (levelAt levels j) := by
    intro j hj hle
    rw [levelAt, levelAt, List.getD_eq_getElem _ _ (by simp; omega),
      List.getD_eq_getElem _ _ (by omega), List.getElem_map]
  have hlt : ∀ i j, 0 < i → i ≤ levels.length → 0 < j → j ≤ levels.length →
      (levelAt (levels.map φ) i < levelAt (levels.map φ) j ↔ levelAt levels i < levelAt levels j) := by
    intro i j hi hi' hj hj'
    rw [hlevel i hi hi', hlevel j hj hj']
    exact hφ.lt_iff_lt (hmem i hi hi') (hmem j hj hj')
  constructor <;> intro h
  · have hthere : k ≤ levels.length := by simpa using h.there
    have hbefore := h.before
    refine ⟨hbefore, hthere, fun hpos => ?_, fun j hj hjk => Nat.not_lt.mp fun hless => ?_⟩
    · exact (hlt p k hpos (by omega) (by omega) hthere).mp (h.less hpos)
    · exact absurd ((hlt j k (by omega) (by omega) (by omega) hthere).mpr hless)
        (Nat.not_lt.mpr (h.nearest j hj hjk))
  · have hthere := h.there
    have hbefore := h.before
    refine ⟨hbefore, by simpa using hthere, fun hpos => ?_, fun j hj hjk => Nat.not_lt.mp fun hless => ?_⟩
    · exact (hlt p k hpos (by omega) (by omega) hthere).mpr (h.less hpos)
    · exact absurd ((hlt j k (by omega) (by omega) (by omega) hthere).mp hless)
        (Nat.not_lt.mpr (h.nearest j hj hjk))

/-! ## What lines are read as -/

/-- The lines that say something. -/
def spoken (ls : List (List Char)) : List (List Char) := ls.filter fun raw => !isSilent (trim raw)

/-- An instruction without its children. -/
def bare (i : Instruction) : Instruction := { i with children := [] }

/-- The forest `g` is `f` with a root behind it and the given lines, each an instruction of its own,
below the line that encloses it and in order. -/
structure ReadAs (ls : List (List Char)) (f g : Forest) : Prop where
  size : g.size = f.size + 1 + ls.length
  old : ∀ id < f.size, g.get id = f.get id
  root : bare (g.get f.size) = .root
  line : ∀ k (h : k < ls.length), Line.parse (trim ls[k]) = .ok (bare (g.get (f.size + (k + 1))))
  child_iff : ∀ p ≤ ls.length, ∀ c : Nat, c ∈ (g.get (f.size + p)).children ↔
    ∃ k, c = f.size + k ∧ Encloses (ls.map columns) p k
  ordered : ∀ p ≤ ls.length, (g.get (f.size + p)).children.Pairwise (· < ·)

theorem bare_of_children (h : i.children = []) : bare i = i := by
  rw [bare, ← h]

theorem bare_get_addChild {parent id : Nat} (hlt : parent < g.size) (hid : id < g.size) :
    bare ((g.addChild parent i).2.get id) = bare (g.get id) := by
  by_cases heq : id = parent
  · rw [heq, get_addChild_parent g hlt]
    rfl
  · rw [get_addChild_of_ne g hid heq]

theorem children_of_parse {cs : List Char} (h : Line.parse cs = .ok i) :
    i.children = [] := by
  obtain ⟨name, rest, type?, rest', attributes, -, -, -, rfl⟩ := Line.exists_of_parse h
  rfl

namespace ReadAs

variable {ls : List (List Char)} {f g : Forest}

theorem start (f : Forest) : ReadAs [] f (f.add .root).2 where
  size := Forest.size_add f .root
  old id hid := get_add_of_lt f .root hid
  root := by rw [get_add_size]; rfl
  line k hk := absurd hk (Nat.not_lt_zero k)
  child_iff p hp c := by
    rw [Nat.le_zero.mp hp, Nat.add_zero, get_add_size]
    constructor
    · intro hc
      cases hc
    · rintro ⟨k, -, hk⟩
      exact absurd hk.there (Nat.not_le.mpr hk.before)
  ordered p hp := by
    rw [Nat.le_zero.mp hp, Nat.add_zero, get_add_size]
    exact List.Pairwise.nil

theorem parent_lt (h : ReadAs ls f g) (raw : List Char) :
    f.size + lastBelow (columns raw) (ls.map columns).reverse < g.size := by
  have hbound := (lastBelow_spec (columns raw) (ls.map columns)).1
  rw [List.length_map] at hbound
  have hsize := h.size
  omega

variable {i : Instruction} {p : Nat}

theorem children_concat (h : ReadAs ls f g) (raw : List Char) (hbare : i.children = [])
    (id : Nat) : ((g.addChild (f.size + lastBelow (columns raw) (ls.map columns).reverse) i).2.get
      id).children =
      if id = f.size + lastBelow (columns raw) (ls.map columns).reverse then (g.get id).children ++ [g.size]
      else if id = g.size then [] else (g.get id).children :=
  children_addChild g (h.parent_lt raw) hbare id

/-- With one more line, below the last one that is less indented, the children are still those that a
line encloses. -/
theorem child_iff_concat (h : ReadAs ls f g) (raw : List Char) (hbare : i.children = [])
    (hp : p ≤ ls.length + 1) (c : Nat) :
    c ∈ ((g.addChild (f.size + lastBelow (columns raw) (ls.map columns).reverse) i).2.get
        (f.size + p)).children ↔
      ∃ k, c = f.size + k ∧ Encloses ((ls ++ [raw]).map columns) p k := by
  have hsize := h.size
  have hlt := h.parent_lt raw
  simp only [List.map_append, List.map_singleton, encloses_concat, List.length_map]
  rw [h.children_concat raw hbare]
  rcases Nat.lt_or_eq_of_le hp with hold | rfl
  · have hthere := h.child_iff p (Nat.le_of_lt_succ hold) c
    split
    · next heq =>
      rw [List.mem_append, List.mem_singleton, hthere]
      constructor
      · rintro (⟨k, hk, hin⟩ | rfl)
        · exact ⟨k, hk, .inl hin⟩
        · exact ⟨ls.length + 1, by omega, .inr ⟨rfl, by omega⟩⟩
      · rintro ⟨k, rfl, hin | ⟨rfl, -⟩⟩
        · exact .inl ⟨k, rfl, hin⟩
        · exact .inr (by omega)
    · next hne =>
      rw [if_neg (by omega), hthere]
      constructor
      · rintro ⟨k, hk, hin⟩
        exact ⟨k, hk, .inl hin⟩
      · rintro ⟨k, hk, hin | ⟨-, rfl⟩⟩
        · exact ⟨k, hk, hin⟩
        · exact absurd rfl hne
  · -- nothing stands below the last line
    rw [if_neg (by omega), if_pos (by omega)]
    constructor
    · intro hc
      cases hc
    · rintro ⟨k, -, hin | ⟨rfl, hlast⟩⟩
      · have hbefore := hin.before
        have hthere := hin.there
        rw [List.length_map] at hthere
        omega
      · omega

theorem ordered_concat (h : ReadAs ls f g) (raw : List Char) (hbare : i.children = [])
    (hp : p ≤ ls.length + 1) :
    ((g.addChild (f.size + lastBelow (columns raw) (ls.map columns).reverse) i).2.get
      (f.size + p)).children.Pairwise (· < ·) := by
  have hsize := h.size
  have hlt := h.parent_lt raw
  rw [h.children_concat raw hbare]
  split
  · next heq =>
    rw [List.pairwise_append]
    refine ⟨h.ordered p (by omega), List.pairwise_singleton _ _, ?_⟩
    intro a ha b hb
    obtain ⟨k, rfl, hin⟩ := (h.child_iff p (by omega) a).mp ha
    have hthere := hin.there
    rw [List.length_map] at hthere
    rw [List.mem_singleton.mp hb]
    show f.size + k < g.size
    omega
  · split
    · exact List.Pairwise.nil
    · exact h.ordered p (by omega)

theorem concat (h : ReadAs ls f g) (hi : Line.parse (trim raw) = .ok i) :
    ReadAs (ls ++ [raw]) f
      (g.addChild (f.size + lastBelow (columns raw) (ls.map columns).reverse) i).2 := by
  have hsize := h.size
  have hlt := h.parent_lt raw
  have hbare := children_of_parse hi
  have hlength : (ls ++ [raw]).length = ls.length + 1 := by simp
  constructor
  case size =>
    rw [size_addChild, hlength]
    omega
  case old =>
    intro id hid
    have hne : id ≠ f.size + lastBelow (columns raw) (ls.map columns).reverse :=
      ne_of_lt (Nat.lt_add_right _ hid)
    rw [get_addChild_of_ne g (show id < g.size by omega) hne, h.old id hid]
  case root =>
    rw [bare_get_addChild hlt (by omega), h.root]
  case line =>
    intro k hk
    rw [hlength] at hk
    rcases Nat.lt_or_eq_of_le (Nat.le_of_lt_succ hk) with hold | rfl
    · rw [List.getElem_append_left hold, bare_get_addChild hlt (by omega)]
      exact h.line k hold
    · rw [List.getElem_concat_length rfl, show f.size + (ls.length + 1) = g.size by omega,
        get_addChild_size g hlt, bare_of_children hbare]
      exact hi
  case child_iff =>
    exact fun p hp => h.child_iff_concat raw hbare (hlength ▸ hp)
  case ordered =>
    exact fun p hp => h.ordered_concat raw hbare (hlength ▸ hp)

/-- What lines are read as is determined by their contents and by which line encloses which. -/
theorem unique {ls' : List (List Char)} {g' : Forest} (h : ReadAs ls f g) (h' : ReadAs ls' f g')
    (htrim : ls'.map trim = ls.map trim)
    (hlevels : ∀ p k, Encloses (ls'.map columns) p k ↔ Encloses (ls.map columns) p k) : g' = g := by
  have hlength : ls'.length = ls.length := by simpa using congrArg List.length htrim
  have hsize : g'.size = g.size := by rw [h'.size, h.size, hlength]
  have hbare : ∀ p ≤ ls.length, bare (g'.get (f.size + p)) = bare (g.get (f.size + p)) := by
    intro p hp
    cases p with
    | zero => rw [Nat.add_zero, h'.root, h.root]
    | succ k =>
      have hline := h.line k hp
      have hline' := h'.line k (by omega)
      have hsame : trim ls'[k] = trim ls[k] := by
        have := congrArg (·[k]?) htrim
        simpa [List.getElem?_map, List.getElem?_eq_getElem hp,
          List.getElem?_eq_getElem (show k < ls'.length by omega)] using this
      rw [hsame, hline] at hline'
      exact (Except.ok.inj hline').symm
  -- both lists of children are in order, so it is enough that they have the same members
  have hchildren : ∀ p ≤ ls.length,
      (g'.get (f.size + p)).children = (g.get (f.size + p)).children := by
    intro p hp
    have hordered := h.ordered p hp
    have hordered' := h'.ordered p (by omega)
    refine List.Perm.eq_of_pairwise (fun a b _ _ hab hba => absurd hab (Nat.lt_asymm hba))
      hordered' hordered ?_
    refine (List.perm_ext_iff_of_nodup (hordered'.imp ne_of_lt) (hordered.imp ne_of_lt)).mpr
      fun c => ?_
    rw [h'.child_iff p (by omega) c, h.child_iff p hp c]
    simp only [hlevels]
  have hget : ∀ id < g.size, g'.get id = g.get id := by
    intro id hid
    rcases Nat.lt_or_ge id f.size with hold | hnew
    · rw [h'.old id hold, h.old id hold]
    · obtain ⟨p, rfl⟩ := Nat.exists_eq_add_of_le hnew
      have hp : p ≤ ls.length := by
        rw [h.size] at hid
        omega
      calc g'.get (f.size + p)
          = { bare (g'.get (f.size + p)) with children := (g'.get (f.size + p)).children } := rfl
        _ = { bare (g.get (f.size + p)) with children := (g.get (f.size + p)).children } := by
            rw [hbare p hp, hchildren p hp]
        _ = g.get (f.size + p) := rfl
  obtain ⟨nodes'⟩ := g'
  obtain ⟨nodes⟩ := g
  congr 1
  refine Array.ext hsize fun id hid' hid => ?_
  have := hget id hid
  simpa [Forest.get, hid, hid'] using this

end ReadAs

/-! ## Reading line by line -/

/-- What was read so far is what the lines so far are read as, and the stack tells for each level the
last line below it. -/
structure Progress.Follows (f : Forest) (ls : List (List Char)) (st : Progress) : Prop where
  read : ReadAs ls f st.forest
  opened : ∀ level, parentAt f.size level st.opened = f.size + lastBelow level (ls.map columns).reverse

theorem Progress.Follows.start (f : Forest) : Progress.Follows f [] { forest := (f.add .root).2 } where
  read := .start f
  opened _ := rfl

/-- The stack after one more line: a level above that line finds it, and any other level looks past it
and past all that was taken off for it. -/
theorem parentAt_opened (root : InstructionId) (level indent : Nat) (id : InstructionId)
    (opened : List (Nat × InstructionId)) :
    parentAt root level ((indent, id) :: openAt indent opened) =
      if indent < level then id else parentAt root level opened := by
  split
  · next hlt =>
    rw [parentAt, openAt_cons_of_lt hlt]
    rfl
  · next hle =>
    rw [parentAt, openAt_cons_of_le (Nat.not_lt.mp hle), openAt_openAt (Nat.not_lt.mp hle), parentAt]

theorem Progress.Follows.concat {st' : Progress} (h : st.Follows f ls) (hraw : isSilent (trim raw) = false)
    (hst : readLine f.size st raw = .ok st') : st'.Follows f (ls ++ [raw]) := by
  rw [readLine_of_spoken _ _ hraw] at hst
  cases hi : Line.parse (trim raw) with
  | error fault =>
    rw [hi] at hst
    cases hst
  | ok i =>
    rw [hi] at hst
    cases hst
    refine ⟨?_, fun level => ?_⟩
    · rw [h.opened]
      exact h.read.concat hi
    · rw [parentAt_opened, h.opened, List.map_append, List.map_singleton, lastBelow_reverse_concat,
        List.length_map, h.read.size]
      split
      · rw [Nat.add_assoc, Nat.add_comm 1]
      · rfl

theorem spoken_cons_of_silent (h : isSilent (trim raw) = true)
    (rest : List (List Char)) : spoken (raw :: rest) = spoken rest := by
  simp [spoken, h]

theorem spoken_cons_of_spoken (h : isSilent (trim raw) = false)
    (rest : List (List Char)) : spoken (raw :: rest) = raw :: spoken rest := by
  simp [spoken, h]

/-- Lines that can be read are read, whatever comes behind them. -/
theorem Progress.Follows.readLines_append (before : List (List Char)) (h : st.Follows f ls) (number : Nat)
    (hbefore : ∀ l ∈ spoken before, ∃ i, Line.parse (trim l) = .ok i) :
    ∃ st', st'.Follows f (ls ++ spoken before) ∧ ∀ more,
      Outline.readLines f.size st number (before ++ more) =
        Outline.readLines f.size st' (number + before.length) more := by
  induction before generalizing ls st number with
  | nil =>
    refine ⟨st, ?_, fun more => rfl⟩
    rw [spoken, List.filter_nil, List.append_nil]
    exact h
  | cons raw before ih =>
    have hnumber : number + (raw :: before).length = number + 1 + before.length := by
      rw [List.length_cons]
      omega
    cases hsilent : isSilent (trim raw) with
    | true =>
      rw [spoken_cons_of_silent hsilent] at hbefore ⊢
      obtain ⟨st', hst', hread⟩ := ih h (number + 1) hbefore
      refine ⟨st', hst', fun more => ?_⟩
      have hline : Outline.readLine f.size st raw = .ok st := by
        simp [Outline.readLine, hsilent]
      rw [List.cons_append, Outline.readLines, hline, hnumber]
      exact hread more
    | false =>
      rw [spoken_cons_of_spoken hsilent] at hbefore ⊢
      obtain ⟨⟨i, hi⟩, hrest⟩ := List.forall_mem_cons.mp hbefore
      obtain ⟨next, hline⟩ : ∃ next, Outline.readLine f.size st raw = .ok next := by
        rw [readLine_of_spoken _ _ hsilent, hi]
        exact ⟨_, rfl⟩
      obtain ⟨st', hst', hread⟩ := ih (h.concat hsilent hline) (number + 1) hrest
      rw [List.append_cons]
      refine ⟨st', hst', fun more => ?_⟩
      rw [List.cons_append, Outline.readLines, hline, hnumber]
      exact hread more

/-- A line that says something and cannot be read, behind lines that can be. -/
structure Unreadable (before : List (List Char)) (raw : List Char) (fault : LineFault) : Prop where
  before : ∀ l ∈ spoken before, ∃ i, Line.parse (trim l) = .ok i
  spoken : isSilent (trim raw) = false
  fault : Line.parse (trim raw) = .error fault

theorem readable_or_unreadable (ls : List (List Char)) :
    (∀ l ∈ spoken ls, ∃ i, Line.parse (trim l) = .ok i) ∨
      ∃ before raw after fault, ls = before ++ raw :: after ∧ Unreadable before raw fault := by
  induction ls with
  | nil => exact .inl (by simp [spoken])
  | cons raw rest ih =>
    cases hsilent : isSilent (trim raw) with
    | true =>
      rw [spoken_cons_of_silent hsilent]
      rcases ih with hall | ⟨before, stop, after, fault, rfl, hstop⟩
      · exact .inl hall
      · refine .inr ⟨raw :: before, stop, after, fault, rfl, ?_, hstop.spoken, hstop.fault⟩
        rw [spoken_cons_of_silent hsilent]
        exact hstop.before
    | false =>
      cases hparse : Line.parse (trim raw) with
      | error fault =>
        exact .inr ⟨[], raw, rest, fault, rfl, by simp [spoken], hsilent, hparse⟩
      | ok i =>
        rw [spoken_cons_of_spoken hsilent]
        rcases ih with hall | ⟨before, stop, after, fault, rfl, hstop⟩
        · exact .inl (List.forall_mem_cons.mpr ⟨⟨i, hparse⟩, hall⟩)
        · refine .inr ⟨raw :: before, stop, after, fault, rfl, ?_, hstop.spoken, hstop.fault⟩
          rw [spoken_cons_of_spoken hsilent]
          exact List.forall_mem_cons.mpr ⟨⟨i, hparse⟩, hstop.before⟩

theorem parse_of_readable (f : Forest)
    (h : ∀ l ∈ spoken (lines source.toList), ∃ i, Line.parse (trim l) = .ok i) :
    ∃ g, ReadAs (spoken (lines source.toList)) f g ∧ parse source f = (g, .ok f.size) := by
  obtain ⟨st, hst, hread⟩ := (Progress.Follows.start f).readLines_append _ 1 h
  have hall := hread []
  rw [List.append_nil] at hall
  refine ⟨st.forest, hst.read, ?_⟩
  rw [parse_eq, hall]
  rfl

/-- A text is read up to the first such line that cannot be read, as if it ended there. -/
theorem Unreadable.parse_eq {before after : List (List Char)} {fault : LineFault}
    (h : Unreadable before raw fault) (hlines : lines source.toList = before ++ raw :: after) (f : Forest) :
    ∃ g, ReadAs (Outline.spoken before) f g ∧
      parse source f = (g, .error ⟨before.length + 1, fault⟩) ∧
      ∀ front : String, lines front.toList = before → parse front f = (g, .ok f.size) := by
  obtain ⟨st, hst, hread⟩ := (Progress.Follows.start f).readLines_append before 1 h.before
  refine ⟨st.forest, hst.read, ?_, fun front hfront => ?_⟩
  · have hstop : readLine f.size st raw = .error fault := by
      rw [readLine_of_spoken _ _ h.spoken, h.fault]
      rfl
    rw [Outline.parse_eq, hlines, hread, readLines, hstop, Nat.add_comm 1]
    rfl
  · have hall := hread []
    rw [List.append_nil] at hall
    rw [Outline.parse_eq, hfront, hall]
    rfl

/-- **What a text is read as**: it is read if it is the lines that say something, each below the line
that encloses it, and not otherwise. -/
theorem parse_eq_ok_iff {root : InstructionId} :
    parse source f = (g, .ok root) ↔ root = f.size ∧ ReadAs (spoken (lines source.toList)) f g := by
  constructor
  · intro h
    rcases readable_or_unreadable (lines source.toList) with hall | ⟨before, raw, after, fault, hlines, hstop⟩
    · obtain ⟨g', hg', hparse⟩ := parse_of_readable f hall
      rw [hparse] at h
      cases h
      exact ⟨rfl, hg'⟩
    · obtain ⟨g', -, hparse, -⟩ := hstop.parse_eq hlines f
      rw [hparse] at h
      cases h
  · rintro ⟨rfl, h⟩
    obtain ⟨g', hg', hparse⟩ := parse_of_readable f fun raw hraw => by
      obtain ⟨k, hk, rfl⟩ := List.getElem_of_mem hraw
      exact ⟨_, h.line k hk⟩
    rw [hparse, h.unique hg' rfl fun _ _ => Iff.rfl]

/-! ## Texts that are read alike -/

/-- The lines `ls'` are the lines `ls` indented anew: by a map that keeps the order of the
indentations. -/
structure Reindented (φ : Nat → Nat) (ls ls' : List (List Char)) : Prop where
  mono : StrictMonoOn φ {n | n ∈ ls.map columns}
  content : ls'.map trim = ls.map trim
  levels : ls'.map columns = (ls.map columns).map φ

theorem ReadAs.of_reindented {ls' : List (List Char)} (h : ReadAs ls f g) (hφ : Reindented φ ls ls') :
    ReadAs ls' f g := by
  have hlength : ls'.length = ls.length := by simpa using congrArg List.length hφ.content
  have hlevels : ∀ p k, Encloses (ls'.map columns) p k ↔ Encloses (ls.map columns) p k := by
    intro p k
    rw [hφ.levels, encloses_map hφ.mono]
  refine ⟨by rw [h.size, hlength], h.old, h.root, fun k hk => ?_, fun p hp c => ?_, fun p hp => ?_⟩
  · have hsame := congrArg (·[k]?) hφ.content
    simp only [List.getElem?_map, List.getElem?_eq_getElem hk,
      List.getElem?_eq_getElem (show k < ls.length by omega), Option.map_some, Option.some.injEq] at hsame
    rw [hsame]
    exact h.line k (by omega)
  · simp only [hlevels]
    exact h.child_iff p (by omega) c
  · exact h.ordered p (by omega)

/-- A text that ends with a line, or is empty. -/
def Whole (cs : List Char) : Prop := cs = [] ∨ ∃ front, cs = front ++ ['\n']

theorem linesOfPieces_append (ps : List (List Char)) {qs : List (List Char)} (h : qs ≠ []) :
    linesOfPieces (ps ++ qs) = ps.map dropReturn ++ linesOfPieces qs := by
  induction ps with
  | nil => rfl
  | cons p ps ih =>
    cases hps : ps ++ qs with
    | nil => exact absurd (List.append_eq_nil_iff.mp hps).2 h
    | cons next rest =>
      rw [List.cons_append, hps, linesOfPieces, ← hps, ih]
      rfl

theorem lines_append {front : List Char} (h : Whole front) (back : List Char) :
    lines (front ++ back) = lines front ++ lines back := by
  rcases h with rfl | ⟨cs, rfl⟩
  · rfl
  · have hnil : linesOfPieces [[]] = [] := rfl
    rw [List.append_assoc, List.singleton_append, lines, lines, lines, splitAt_append, splitAt_append,
      linesOfPieces_append _ (splitAt_ne_nil _ _), linesOfPieces_append _ (splitAt_ne_nil _ _),
      show splitAt '\n' [] = [[]] from rfl, hnil, List.append_nil]

theorem spoken_append (ls ls' : List (List Char)) : spoken (ls ++ ls') = spoken ls ++ spoken ls' :=
  List.filter_append ..

/-- **Indentation is structure.** A text is read into a forest exactly if what comes out is the forest
with a root and the lines that say something, one instruction each and in order, below the lines that
enclose them, which each line has one of. So lines that say nothing can be put in and taken out, and
lines can be indented anew in the same order. -/
theorem parse_by_indentation (source : String) (f g : Forest) (root : InstructionId) :
    (parse source f = (g, .ok root) ↔ root = f.size ∧ ReadAs (spoken (lines source.toList)) f g) ∧
    (∀ k, 0 < k → k ≤ (spoken (lines source.toList)).length →
      ∃! p, Encloses ((spoken (lines source.toList)).map columns) p k) ∧
    (∀ source' φ, Reindented φ (spoken (lines source.toList)) (spoken (lines source'.toList)) →
      parse source f = (g, .ok root) → parse source' f = (g, .ok root)) ∧
    (∀ front silent back : List Char, Whole front → Whole silent →
      (∀ l ∈ lines silent, isSilent (trim l) = true) → source.toList = front ++ back →
      (parse (String.ofList (front ++ silent ++ back)) f = (g, .ok root) ↔
        parse source f = (g, .ok root))) := by
  refine ⟨parse_eq_ok_iff, fun k hk hle => ?_, fun source' φ hφ h => ?_, ?_⟩
  · rw [← List.length_map columns] at hle
    obtain ⟨p, hp⟩ := exists_encloses hk hle
    exact ⟨p, hp, fun q hq => hq.unique hp⟩
  · obtain ⟨hroot, hread⟩ := parse_eq_ok_iff.mp h
    exact parse_eq_ok_iff.mpr ⟨hroot, hread.of_reindented hφ⟩
  · intro front silent back hfront hsilent hall hsource
    have hnone : spoken (lines silent) = [] :=
      List.filter_eq_nil_iff.mpr fun l hl => by simp [hall l hl]
    rw [parse_eq_ok_iff, parse_eq_ok_iff, String.toList_ofList, hsource, List.append_assoc,
      lines_append hfront, lines_append hsilent, lines_append hfront, spoken_append, spoken_append, hnone,
      List.nil_append, spoken_append]

/-- A line that goes back to an indentation that no line had before, and the same lines further apart,
with a blank line and a comment between them. -/
theorem parse_by_indentation_dedent :
    let source := "a\n    b\n  c\n\td\ne\n"
    let source' := " a\n\n\t\t b\n # x\n     c\n\t\t d\n e"
    parse source {} = ((parse source {}).1, .ok 0) ∧
      ReadAs (spoken (lines source.toList)) {} (parse source {}).1 ∧
      (∃! p, Encloses ((spoken (lines source.toList)).map columns) p 4) ∧
      parse source' {} = ((parse source {}).1, .ok 0) ∧
      parse "a\n    b\n  #\n\n  c\n\td\ne\n" {} = ((parse source {}).1, .ok 0) := by
  intro source source'
  have h : parse source {} = ((parse source {}).1, .ok 0) := Prod.ext rfl (by decide +kernel)
  obtain ⟨hread, hparent, hagain, hsilent⟩ := parse_by_indentation source {} (parse source {}).1 0
  have hφ : Reindented (fun n => 2 * n + 1) (spoken (lines source.toList))
      (spoken (lines source'.toList)) :=
    ⟨fun a _ b _ hab => by show 2 * a + 1 < 2 * b + 1; omega, by decide +kernel, by decide +kernel⟩
  refine ⟨h, (hread.mp h).2, hparent 4 (by decide) (by decide +kernel), hagain source' _ hφ h, ?_⟩
  exact (hsilent "a\n    b\n".toList "  #\n\n".toList "  c\n\td\ne\n".toList
    (.inr ⟨"a\n    b".toList, by decide⟩) (.inr ⟨"  #\n".toList, by decide⟩) (by decide +kernel)
    (by decide)).mpr h

end Outline

end LightHeaders
