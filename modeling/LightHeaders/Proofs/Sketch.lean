import LightHeaders.Outline
import LightHeaders.Proofs.LineGrammar
import Mathlib.Data.List.Perm.Subperm

set_option autoImplicit false

/-! # Trees of wordings

A **sketch** is a tree of wordings, without the numbers that instructions have in a forest. A
forest **holds** a sketch at an instruction (`Forest.Holds`) if the instruction and everything
below it say what the sketch says, in the same order.

* What a forest holds at an instruction is determined (`Forest.HoldsAll.unique`).
* The outline of a forest is that of the sketch it holds (`render_eq_of_holds`). The bound on the
  depth of `Forest.tree` is enough, because no branch of a sketch meets an instruction twice
  (`HoldsAll.height_le_size`).
* Sketches can be put below an instruction of a forest, which then holds them there
  (`Forest.plantAll`, `holdsAll_plantAll`).
-/

namespace LightHeaders

open Text

/-- A tree of wordings. -/
inductive Sketch where
  | node (wording : Wording) (children : List Sketch)

namespace Sketch

mutual

/-- Every wording of the sketch is valid. -/
def Valid : Sketch → Prop
  | .node wording children => wording.Valid ∧ AllValid children

/-- Every wording of the sketches is valid. -/
def AllValid : List Sketch → Prop
  | [] => True
  | t :: ts => t.Valid ∧ AllValid ts

end

mutual

/-- How many levels the sketch has. -/
def height : Sketch → Nat
  | .node _ children => heightAll children + 1

/-- How many levels the highest of the sketches has. -/
def heightAll : List Sketch → Nat
  | [] => 0
  | t :: ts => max t.height (heightAll ts)

end

mutual

/-- The lines of the sketch at the given depth. -/
def lines (depth : Nat) : Sketch → List (List Char)
  | .node wording children =>
    (blanks (4 * depth) ++ Line.render wording.instruction) :: linesAll (depth + 1) children

/-- The lines of the sketches at the given depth. -/
def linesAll (depth : Nat) : List Sketch → List (List Char)
  | [] => []
  | t :: ts => t.lines depth ++ linesAll depth ts

end

end Sketch

namespace Forest

/-! ## What a forest holds -/

mutual

/-- The instruction and everything below it say what the sketch says. -/
def Holds (f : Forest) (id : InstructionId) : Sketch → Prop
  | .node wording children =>
    id < f.size ∧ (f.get id).wording = wording ∧ f.HoldsAll (f.get id).children children

/-- The instructions say what the sketches say, one for one. -/
def HoldsAll (f : Forest) : List InstructionId → List Sketch → Prop
  | [], [] => True
  | id :: ids, t :: ts => f.Holds id t ∧ f.HoldsAll ids ts
  | _, _ => False

end

/-- The instructions below `root` say what the sketches say. -/
def HoldsBelow (f : Forest) (root : InstructionId) (ts : List Sketch) : Prop :=
  root < f.size ∧ f.HoldsAll (f.get root).children ts

variable {f : Forest} {id : InstructionId} {ids path : List InstructionId} {ts : List Sketch} {k : Nat}
  {t : Sketch}

theorem Holds.lt_size (h : f.Holds id t) :
    id < f.size := by
  cases t with
  | node wording children =>
    rw [Holds] at h
    exact h.1

theorem HoldsAll.nil_left (h : f.HoldsAll [] ts) : ts = [] := by
  cases ts with
  | nil => rfl
  | cons t ts => simp [HoldsAll] at h

theorem HoldsAll.cons_left (h : f.HoldsAll (id :: ids) ts) :
    ∃ t us, ts = t :: us ∧ f.Holds id t ∧ f.HoldsAll ids us := by
  cases ts with
  | nil => simp [HoldsAll] at h
  | cons t us =>
    rw [HoldsAll] at h
    exact ⟨t, us, rfl, h⟩

mutual

theorem Holds.unique : ∀ {id : InstructionId} {t u : Sketch}, f.Holds id t → f.Holds id u → t = u
  | _, .node _ _, .node _ _, ht, hu => by
    rw [Holds] at ht hu
    obtain ⟨-, rfl, hts⟩ := ht
    obtain ⟨-, rfl, hus⟩ := hu
    rw [HoldsAll.unique hts hus]

/-- **What a forest holds is determined.** -/
theorem HoldsAll.unique :
    ∀ {ids : List InstructionId} {ts us : List Sketch},
      f.HoldsAll ids ts → f.HoldsAll ids us → ts = us
  | [], ts, us, hts, hus => by rw [hts.nil_left, hus.nil_left]
  | id :: ids, [], us, hts, hus => by simp [HoldsAll] at hts
  | id :: ids, t :: ts, us, hts, hus => by
    obtain ⟨u, us', rfl, hu, hus'⟩ := hus.cons_left
    rw [HoldsAll] at hts
    rw [Holds.unique hts.1 hu, HoldsAll.unique hts.2 hus']

end

/-! ## The depth of a sketch -/

theorem length_le_of_nodup {n : Nat} {path : List Nat} (hd : path.Nodup)
    (hlt : ∀ a ∈ path, a < n) : path.length ≤ n := by
  have hsub : path ⊆ List.range n := fun a ha => List.mem_range.mpr (hlt a ha)
  simpa using (List.subperm_of_subset hd hsub).length_le

/-- `path` leads down to a sketch of size `k`: its instructions are distinct and each holds a
greater sketch. -/
structure LeadsDown (f : Forest) (path : List InstructionId) (k : Nat) : Prop where
  nodup : path.Nodup
  greater : ∀ a ∈ path, ∃ u, f.Holds a u ∧ k < sizeOf u

theorem LeadsDown.length_le (h : f.LeadsDown path k) : path.length ≤ f.size := by
  refine length_le_of_nodup h.nodup (fun a ha => ?_)
  obtain ⟨u, hu, -⟩ := h.greater a ha
  exact hu.lt_size

theorem LeadsDown.mono {l : Nat} (h : f.LeadsDown path k) (hle : l ≤ k) : f.LeadsDown path l := by
  refine ⟨h.nodup, fun a ha => ?_⟩
  obtain ⟨u, hu, hlt⟩ := h.greater a ha
  exact ⟨u, hu, by omega⟩

/-- An instruction is not on the path to itself, because it holds only one sketch. -/
theorem LeadsDown.cons (h : f.LeadsDown path (sizeOf t)) (ht : f.Holds id t) (hk : k < sizeOf t) :
    f.LeadsDown (id :: path) k := by
  have hnot : id ∉ path := by
    intro hmem
    obtain ⟨u, hu, hlt⟩ := h.greater id hmem
    rw [Holds.unique hu ht] at hlt
    omega
  refine ⟨List.nodup_cons.mpr ⟨hnot, h.nodup⟩, fun a ha => ?_⟩
  rcases List.mem_cons.mp ha with rfl | ha
  · exact ⟨t, ht, hk⟩
  · exact (h.mono (by omega)).greater a ha

mutual

theorem height_add_length_le :
    ∀ {id : InstructionId} {t : Sketch} {path : List InstructionId},
      f.Holds id t → f.LeadsDown path (sizeOf t) → t.height + path.length ≤ f.size
  | id, .node wording children, path, ht, hpath => by
    have hnext : f.LeadsDown (id :: path) (sizeOf children) :=
      hpath.cons ht (by rw [Sketch.node.sizeOf_spec]; omega)
    rw [Holds] at ht
    have h := heightAll_add_length_le ht.2.2 hnext
    rw [List.length_cons] at h
    rw [Sketch.height]
    omega

theorem heightAll_add_length_le :
    ∀ {ids : List InstructionId} {ts : List Sketch} {path : List InstructionId},
      f.HoldsAll ids ts → f.LeadsDown path (sizeOf ts) →
        Sketch.heightAll ts + path.length ≤ f.size
  | _, [], path, _, hpath => by
    rw [Sketch.heightAll, Nat.zero_add]
    exact hpath.length_le
  | [], t :: ts, path, hts, hpath => by simp [HoldsAll] at hts
  | id :: ids, t :: ts, path, hts, hpath => by
    rw [HoldsAll] at hts
    have h1 := height_add_length_le hts.1 (hpath.mono (by simp; omega))
    have h2 := heightAll_add_length_le hts.2 (hpath.mono (by simp))
    rw [Sketch.heightAll]
    omega

end

/-- **No held sketch is higher than the forest is large.** -/
theorem HoldsAll.height_le_size (h : f.HoldsAll ids ts) : Sketch.heightAll ts ≤ f.size := by
  have hpath : f.LeadsDown [] (sizeOf ts) := ⟨List.nodup_nil, by simp⟩
  simpa using heightAll_add_length_le h hpath

end Forest

namespace Forest

/-! ## Planting -/

variable {parent : InstructionId}

theorem get_addChild_size (f : Forest) (h : parent < f.size)
    (i : Instruction) : (f.addChild parent i).2.get f.size = i := by
  have hne : parent ≠ f.size := ne_of_lt h
  simp only [addChild]
  rw [get_modify _ _ _ (by simp [add, size]), if_neg (by simpa [add] using hne)]
  exact get_add_size f i

theorem get_addChild_parent (f : Forest) (h : parent < f.size)
    (i : Instruction) : (f.addChild parent i).2.get parent
      = { f.get parent with children := (f.get parent).children ++ [f.size] } := by
  simp only [addChild]
  rw [get_modify _ _ _ (by rw [size_add]; exact Nat.lt_succ_of_lt h), if_pos rfl,
    get_add_of_lt f i h]
  rfl

theorem get_addChild_of_ne (f : Forest) {id : InstructionId} (h : id < f.size) (hne : id ≠ parent)
    (i : Instruction) : (f.addChild parent i).2.get id = f.get id := by
  simp only [addChild]
  rw [get_modify _ _ _ (by rw [size_add]; exact Nat.lt_succ_of_lt h), if_neg (Ne.symm hne),
    get_add_of_lt f i h]

mutual

/-- The forest with a sketch as the last child of `parent`. -/
def plant (parent : InstructionId) (f : Forest) : Sketch → Forest
  | .node wording children =>
    (f.addChild parent wording.instruction).2.plantAll f.size children

/-- The forest with the sketches as the last children of `parent`. -/
def plantAll (parent : InstructionId) (f : Forest) : List Sketch → Forest
  | [] => f
  | t :: ts => (f.plant parent t).plantAll parent ts

end

/-- `g` is `f` with the instructions `ids` put below `parent`; everything else that is new stands
below them. -/
structure Planted (f g : Forest) (parent : InstructionId) (ids : List InstructionId) : Prop where
  size_le : f.size ≤ g.size
  at_parent : g.get parent = { f.get parent with children := (f.get parent).children ++ ids }
  others : ∀ id, id < f.size → id ≠ parent → g.get id = f.get id
  below : ∀ id, f.size ≤ id → id < g.size → ∀ c ∈ (g.get id).children, f.size ≤ c
  ids_ge : ∀ id ∈ ids, f.size ≤ id

variable {f g : Forest}

mutual

/-- A change outside an end of the forest that is closed under children keeps what it holds. -/
theorem Holds.of_agree {lo : Nat} (hsize : f.size ≤ g.size)
    (hclosed : ∀ id, lo ≤ id → id < f.size → ∀ c ∈ (f.get id).children, lo ≤ c)
    (hsame : ∀ id, lo ≤ id → id < f.size → g.get id = f.get id) :
    ∀ {id : InstructionId} {t : Sketch}, lo ≤ id → f.Holds id t → g.Holds id t
  | id, .node wording children, hid, ht => by
    rw [Holds] at ht ⊢
    obtain ⟨hlt, hw, hts⟩ := ht
    rw [hsame id hid hlt]
    exact ⟨lt_of_lt_of_le hlt hsize, hw,
      HoldsAll.of_agree hsize hclosed hsame (hclosed id hid hlt) hts⟩

theorem HoldsAll.of_agree {lo : Nat} (hsize : f.size ≤ g.size)
    (hclosed : ∀ id, lo ≤ id → id < f.size → ∀ c ∈ (f.get id).children, lo ≤ c)
    (hsame : ∀ id, lo ≤ id → id < f.size → g.get id = f.get id) :
    ∀ {ids : List InstructionId} {ts : List Sketch}, (∀ id ∈ ids, lo ≤ id) →
      f.HoldsAll ids ts → g.HoldsAll ids ts
  | [], ts, _, hts => by
    rw [hts.nil_left]
    simp [HoldsAll]
  | id :: ids, [], _, hts => by simp [HoldsAll] at hts
  | id :: ids, t :: ts, hids, hts => by
    rw [HoldsAll] at hts ⊢
    exact ⟨Holds.of_agree hsize hclosed hsame (hids id (.head _)) hts.1,
      HoldsAll.of_agree hsize hclosed hsame
        (fun c hc => hids c (.tail _ hc)) hts.2⟩

end

mutual

theorem holds_plant : ∀ (t : Sketch) (f : Forest) {parent : InstructionId}, parent < f.size →
    f.Planted (f.plant parent t) parent [f.size] ∧ (f.plant parent t).Holds f.size t
  | .node wording children, f, parent, hp => by
    set g := (f.addChild parent wording.instruction).2 with hg
    have hsize : g.size = f.size + 1 := size_addChild f parent _
    have hnew : g.get f.size = wording.instruction := get_addChild_size f hp _
    have hlast : f.size < g.size := by omega
    obtain ⟨ids, hplanted, hholds⟩ := holdsAll_plantAll children g hlast
    have hroot := hplanted.at_parent
    rw [hnew] at hroot
    have hchildren : ((g.plantAll f.size children).get f.size).children = ids := by
      rw [hroot]
      rfl
    have hle := hplanted.size_le
    have heq : f.plant parent (.node wording children) = g.plantAll f.size children := by
      rw [plant]
    rw [heq]
    refine ⟨⟨by omega, ?_, ?_, ?_, by simp⟩, ?_⟩
    · rw [hplanted.others parent (by rw [hsize]; exact Nat.lt_succ_of_lt hp) (ne_of_lt hp)]
      exact get_addChild_parent f hp _
    · intro id hid hne
      rw [hplanted.others id (by rw [hsize]; exact Nat.lt_succ_of_lt hid) (ne_of_lt hid)]
      exact get_addChild_of_ne f hid hne _
    · intro id hid hlt c hc
      by_cases hid' : id = f.size
      · rw [hid', hchildren] at hc
        have := hplanted.ids_ge c hc
        grind
      · have := hplanted.below id (by grind) hlt c hc
        grind
    · rw [Holds, hchildren, hroot]
      exact ⟨lt_of_lt_of_le hlast hle, rfl, hholds⟩

/-- **Sketches put below an instruction are held there**, behind what stood there before. -/
theorem holdsAll_plantAll : ∀ (ts : List Sketch) (f : Forest) {parent : InstructionId},
    parent < f.size →
    ∃ ids, f.Planted (f.plantAll parent ts) parent ids ∧ (f.plantAll parent ts).HoldsAll ids ts
  | [], f, parent, hp => by
    refine ⟨[], ⟨le_rfl, ?_, fun _ _ _ => rfl, ?_, by simp⟩, ?_⟩
    · rw [plantAll, List.append_nil]
    · intro id hid hlt
      rw [plantAll] at hlt
      exact absurd hlt (Nat.not_lt.mpr hid)
    · simp [HoldsAll]
  | t :: ts, f, parent, hp => by
    obtain ⟨ht, hfirst⟩ := holds_plant t f hp
    set g := f.plant parent t with hg
    have hpg : parent < g.size := lt_of_lt_of_le hp ht.size_le
    obtain ⟨ids, hts, hrest⟩ := holdsAll_plantAll ts g hpg
    have hle := hts.size_le
    have hlt := ht.size_le
    have heq : f.plantAll parent (t :: ts) = g.plantAll parent ts := by rw [plantAll]
    have hkept : ∀ id, f.size ≤ id → id < g.size →
        (g.plantAll parent ts).get id = g.get id := fun id hid hlt' =>
      hts.others id hlt' (Nat.ne_of_gt (lt_of_lt_of_le hp hid))
    rw [heq]
    refine ⟨f.size :: ids, ⟨by omega, ?_, ?_, ?_, ?_⟩, ?_⟩
    · rw [hts.at_parent, ht.at_parent]
      simp
    · intro id hid hne
      rw [hts.others id (by grind) hne, ht.others id hid hne]
    · intro id hid hlt' c hc
      by_cases hid' : id < g.size
      · rw [hkept id hid hid'] at hc
        exact ht.below id hid hid' c hc
      · have := hts.below id (by grind) hlt' c hc
        grind
    · intro id hid
      rcases List.mem_cons.mp hid with rfl | hid
      · exact le_rfl
      · exact le_trans hlt (hts.ids_ge id hid)
    · rw [HoldsAll]
      exact ⟨Holds.of_agree hle ht.below hkept le_rfl hfirst, hrest⟩

end

end Forest

/-! ## The outline of a sketch -/

variable {f : Forest}

mutual

theorem Outline.renderTree_of_holds :
    ∀ {id : InstructionId} {t : Sketch} (bound depth : Nat),
      f.Holds id t → t.height ≤ bound + 1 →
        Outline.renderTree depth (f.treeWithin bound id) = unlines (t.lines depth)
  | id, .node wording children, bound, depth, ht, hb => by
    rw [Forest.Holds] at ht
    obtain ⟨-, hw, hts⟩ := ht
    rw [Sketch.height] at hb
    rw [Sketch.lines, unlines_cons, ← hw, Line.render_wording]
    cases bound with
    | zero =>
      -- nothing is cut off: the sketch has no second level
      have hnil : children = [] := by
        cases children with
        | nil => rfl
        | cons t ts =>
          cases t with
          | node w cs =>
            rw [Sketch.heightAll, Sketch.height] at hb
            omega
      subst hnil
      rfl
    | succ bound =>
      rw [Forest.treeWithin, Outline.renderTree,
        Outline.renderTrees_of_holds bound (depth + 1) hts (by omega)]

theorem Outline.renderTrees_of_holds :
    ∀ {ids : List InstructionId} {ts : List Sketch} (bound depth : Nat),
      f.HoldsAll ids ts → Sketch.heightAll ts ≤ bound + 1 →
        Outline.renderTrees depth (ids.map (f.treeWithin bound))
          = unlines (Sketch.linesAll depth ts)
  | [], ts, bound, depth, hts, hb => by
    rw [hts.nil_left]
    rfl
  | id :: ids, [], bound, depth, hts, hb => by simp [Forest.HoldsAll] at hts
  | id :: ids, t :: ts, bound, depth, hts, hb => by
    rw [Forest.HoldsAll] at hts
    rw [Sketch.heightAll] at hb
    rw [List.map_cons, Outline.renderTrees, Sketch.linesAll, unlines_append,
      Outline.renderTree_of_holds bound depth hts.1 (by omega),
      Outline.renderTrees_of_holds bound depth hts.2 (by omega)]

end

/-- **The outline of a forest is that of the sketches it holds.** -/
theorem Outline.render_eq_of_holds {root : InstructionId} {ts : List Sketch} (h : f.HoldsBelow root ts) :
    Outline.render f root = String.ofList (unlines (Sketch.linesAll 0 ts)) := by
  obtain ⟨hroot, hts⟩ := h
  have hheight := hts.height_le_size
  obtain ⟨bound, hbound⟩ := Nat.exists_eq_add_one_of_ne_zero (Nat.ne_zero_of_lt hroot)
  have hbody : f.body root = (f.get root).children.map (f.treeWithin bound) := by
    rw [Forest.body, Forest.tree, hbound]
    rfl
  rw [Outline.render, hbody, Outline.renderTrees_of_holds bound 0 hts (by omega)]

end LightHeaders
