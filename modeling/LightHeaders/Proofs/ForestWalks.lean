import LightHeaders.Proofs.LoadRecursion

set_option autoImplicit false

/-! # Walks over the instructions

Outlines, C++ headers, single instructions and later edits all work on one forest, in any order, and
outlines also stop midway. None of them gives an instruction a child that is not new (`Sound.step`), so
at any time the instructions are trees: a child has the greater number, and no number is a child twice.

A walk goes down below an instruction before it goes on behind it (`Forest.Walk`). That the rules of
`Walk` lead to an end has to be shown: nothing in them bounds the depth. In a forest that arises from
nothing every walk ends, it meets each instruction below its root once, and the outline of the root has
one line for each of them, in the order of the walk (`Forest.Arises.walks_end`).
-/

namespace LightHeaders

namespace Forest

/-! ## How forests arise -/

/-- One call on a forest: an instruction without children is added, a source is read, whether or not that
succeeds, an instruction or a child of one is renamed, or an instruction gets its line. -/
inductive Step (f : Forest) : Forest → Prop
  | add {i : Instruction} (bare : i.children = []) : Step f (f.add i).2
  | addChild {parent : InstructionId} {i : Instruction} (there : parent < f.size) (bare : i.children = []) :
      Step f (f.addChild parent i).2
  | parse (source : String) : Step f (Outline.parse source f).1
  | header (source : String) : Step f (Header.read source f).1
  | setName (id : InstructionId) (name : String) : Step f (f.setName id name)
  | setChildName (id : InstructionId) (pos : Nat) (name : String) : Step f (f.setChildName id pos name)
  | stamp (id : InstructionId) (line : Nat) : Step f (f.stamp id line)

/-- The forest comes from calls on an empty one. -/
def Arises : Forest → Prop := Relation.ReflTransGen Step {}

variable {f g : Forest}

/-- **Calls keep the instructions in trees.** -/
theorem Sound.step (hf : f.Sound) (h : f.Step g) : g.Sound := by
  cases h with
  | add bare => exact hf.add bare
  | addChild there bare => exact hf.addChild there bare
  | parse source => exact (Outline.grown_parse source f).sound hf
  | header source => exact (Header.grown_read source f).1.sound hf
  | setName id name => exact hf.modify id fun _ => rfl
  | setChildName id pos name =>
    rw [setChildName]
    split
    · exact hf.modify _ fun _ => rfl
    · exact hf
  | stamp id line => exact hf.modify id fun _ => rfl

theorem Arises.sound (h : f.Arises) : f.Sound := by
  induction h with
  | refl =>
    have hnone : ∀ id, (Forest.get {} id).children = [] := fun id =>
      children_of_size_le {} (Nat.zero_le id)
    constructor
    · intro id c hc
      rw [hnone] at hc
      cases hc
    · intro id
      rw [hnone]
      exact List.nodup_nil
    · intro a b c hc
      rw [hnone] at hc
      cases hc
  | tail _ hstep ih => exact ih.step hstep

theorem Sound.nodup_children (hf : f.Sound) :
    ((List.range f.size).flatMap fun id => (f.get id).children).Nodup := by
  refine List.nodup_flatMap.mpr ⟨fun id _ => hf.nodup id, ?_⟩
  refine List.nodup_range.imp fun {a b} hne c hca hcb => ?_
  exact hne (hf.parent_unique hca hcb)

/-- No chain of children goes on without end: their numbers grow, and there are only so many. -/
theorem Sound.wellFounded_children (hf : f.Sound) :
    WellFounded fun (c id : InstructionId) => c ∈ (f.get id).children := by
  refine Subrelation.wf (fun {c id} hc => ?_)
    (InvImage.wf (fun id : InstructionId => f.size - id) Nat.lt_wfRel.wf)
  obtain ⟨hafter, hlt⟩ := hf.later hc
  exact Nat.sub_lt_sub_left (lt_trans hafter hlt) hafter

/-! ## Walks -/

/-- The instructions of a list and those below them, each with its depth, in the order in which they are
met if what is below an instruction comes before what is behind it. -/
inductive Walk (f : Forest) : Nat → List InstructionId → List (Nat × InstructionId) → Prop
  | done (depth : Nat) : Walk f depth [] []
  | visit {depth : Nat} {id : InstructionId} {ids : List InstructionId}
      {below behind : List (Nat × InstructionId)} (down : Walk f (depth + 1) (f.get id).children below)
      (on : Walk f depth ids behind) : Walk f depth (id :: ids) ((depth, id) :: (below ++ behind))

variable {depth : Nat} {ids : List InstructionId} {visits : List (Nat × InstructionId)}

/-- **Every walk ends**, by induction on the links to children. -/
theorem Sound.exists_walk (hf : f.Sound) (depth : Nat) (ids : List InstructionId) :
    ∃ visits, f.Walk depth ids visits := by
  -- a list is walked once it is known that each of its instructions can be gone below
  have hrow : ∀ {depth : Nat} (ids : List InstructionId),
      (∀ id ∈ ids, ∃ below, f.Walk (depth + 1) (f.get id).children below) →
        ∃ visits, f.Walk depth ids visits := by
    intro depth ids hdown
    induction ids with
    | nil => exact ⟨[], .done depth⟩
    | cons id ids ih =>
      obtain ⟨below, hbelow⟩ := hdown id (.head _)
      obtain ⟨behind, hbehind⟩ := ih fun other hother => hdown other (.tail _ hother)
      exact ⟨_, .visit hbelow hbehind⟩
  have hdown : ∀ (id : InstructionId) (depth : Nat), ∃ below, f.Walk depth (f.get id).children below := by
    intro id
    induction id using hf.wellFounded_children.induction with
    | _ id ih => exact fun depth => hrow _ fun c hc => ih c hc (depth + 1)
  exact hrow ids fun id _ => hdown id (depth + 1)

theorem Walk.unique {others : List (Nat × InstructionId)} (h : f.Walk depth ids visits)
    (h' : f.Walk depth ids others) : others = visits := by
  induction h generalizing others with
  | done => cases h' with | done => rfl
  | visit _ _ ihdown ihon =>
    cases h' with
    | visit down on => rw [ihdown down, ihon on]

theorem under_iff {a x : InstructionId} : f.Under a x ↔ x = a ∨ ∃ c ∈ (f.get a).children, f.Under c x := by
  constructor
  · intro h
    induction h with
    | self => exact .inl rfl
    | child _ hmem ih =>
      rcases ih with rfl | ⟨c, hc, hunder⟩
      · exact .inr ⟨_, hmem, .self⟩
      · exact .inr ⟨c, hc, .child hunder hmem⟩
  · rintro (rfl | ⟨c, hc, hunder⟩)
    · exact .self
    · exact hunder.head hc

theorem Walk.mem_iff (h : f.Walk depth ids visits) {x : InstructionId} :
    x ∈ visits.map Prod.snd ↔ ∃ id ∈ ids, f.Under id x := by
  induction h with
  | done => simp
  | @visit _ id _ _ _ _ _ ihdown ihon =>
    rw [List.map_cons, List.map_append, List.mem_cons, List.mem_append, ihdown, ihon, List.exists_mem_cons_iff,
      under_iff, or_assoc]

theorem Sound.ids_tree (hf : f.Sound) (id : InstructionId) :
    (f.tree id).ids = id :: (f.get id).children.flatMap fun c => (f.tree c).ids := by
  rw [hf.tree_eq, InstructionTree.ids, InstructionTree.nodes, InstructionTree.nodesAll_eq_flatMap,
    List.flatMap_map, List.map_cons, List.map_flatMap]
  rfl

theorem Walk.ids_eq (h : f.Walk depth ids visits) (hf : f.Sound) :
    visits.map Prod.snd = ids.flatMap fun id => (f.tree id).ids := by
  induction h with
  | done => rfl
  | visit _ _ ihdown ihon =>
    rw [List.map_cons, List.map_append, ihdown, ihon, List.flatMap_cons, hf.ids_tree, List.cons_append]

/-- The line of an instruction at a depth. -/
def lineAt (f : Forest) (visit : Nat × InstructionId) : List Char :=
  Text.blanks (4 * visit.1) ++ Line.render (f.get visit.2) ++ ['\n']

/-- The outline of trees has a line for each instruction that a walk meets, in the same order. -/
theorem Walk.renderTrees_eq (h : f.Walk depth ids visits) (hf : f.Sound) :
    Outline.renderTrees depth (ids.map f.tree) = visits.flatMap f.lineAt := by
  induction h with
  | done => rw [List.map_nil, Outline.renderTrees, List.flatMap_nil]
  | visit _ _ ihdown ihon =>
    rw [List.map_cons, Outline.renderTrees, ihon, hf.tree_eq, Outline.renderTree, ihdown]
    simp [lineAt]

/-- **The instructions are trees at any time.** In a forest that arises from nothing by adding
instructions, reading outlines and headers, renaming and giving lines, in any order: a child is there and
has a greater number than its parent, and no number is a child twice. So going down ends, the tree of an
instruction is never cut off by its bound, and from every root there is just one walk. It meets what is
below the root and nothing twice, and the outline of the root has a line for each of them, in its order. -/
theorem Arises.walks_end (h : f.Arises) :
    (∀ id c, c ∈ (f.get id).children → id < c ∧ c < f.size) ∧
    ((List.range f.size).flatMap fun id => (f.get id).children).Nodup ∧
    (WellFounded fun (c id : InstructionId) => c ∈ (f.get id).children) ∧
    (∀ id, f.tree id = .node id (f.get id) ((f.get id).children.map f.tree)) ∧
    ∀ root, ∃ visits, f.Walk 0 (f.get root).children visits ∧
      (∀ others, f.Walk 0 (f.get root).children others → others = visits) ∧
      (visits.map Prod.snd).Nodup ∧
      (∀ x, x ∈ visits.map Prod.snd ↔ ∃ c ∈ (f.get root).children, f.Under c x) ∧
      Outline.render f root = String.ofList (visits.flatMap f.lineAt) := by
  have hf := h.sound
  refine ⟨fun _ _ hc => hf.later hc, hf.nodup_children, hf.wellFounded_children, hf.tree_eq, fun root => ?_⟩
  obtain ⟨visits, hwalk⟩ := hf.exists_walk 0 (f.get root).children
  refine ⟨visits, hwalk, fun _ => hwalk.unique, ?_, fun _ => hwalk.mem_iff, ?_⟩
  · have hnodup : (f.tree root).ids.Nodup := hf.nodup_ids f.size root
    rw [hf.ids_tree, ← hwalk.ids_eq hf] at hnodup
    exact (List.nodup_cons.mp hnodup).2
  · rw [Outline.render, body, hf.tree_eq]
    exact congrArg String.ofList (hwalk.renderTrees_eq hf)

/-- An outline that stops at a line, a header, an instruction below one of the outline and a new name: the
walk from the root of the outline passes over the header. -/
theorem Arises.walks_end_mixed :
    let read := (Outline.parse "a\n  b\nc '\n" {}).1
    let lowered := (Header.read "int f(int x);\n" read).1
    let grown := (lowered.addChild 2 { op := "d", name := "" }).2
    let f := grown.setChildName 0 0 "n"
    f.Arises ∧ (f.get 0).children = [1] ∧ f.Walk 0 [1] [(0, 1), (1, 2), (2, 6)] ∧
      Outline.render f 0 = "a n\n    b\n        d\n" := by
  intro read lowered grown f
  have harises : f.Arises := by
    refine .tail (.tail (.tail (.tail .refl (.parse _)) (.header _)) (.addChild ?_ rfl)) (.setChildName ..)
    decide +kernel
  obtain ⟨h0, h1, h2, h6⟩ : (f.get 0).children = [1] ∧ (f.get 1).children = [2] ∧
      (f.get 2).children = [6] ∧ (f.get 6).children = [] := by decide +kernel
  have hlast : f.Walk 3 (f.get 6).children [] := by
    rw [h6]
    exact .done 3
  have hinner : f.Walk 2 (f.get 2).children [(2, 6)] := by
    rw [h2]
    exact .visit hlast (.done 2)
  have houter : f.Walk 1 (f.get 1).children [(1, 2), (2, 6)] := by
    rw [h1]
    exact .visit hinner (.done 1)
  have hwalk : f.Walk 0 [1] [(0, 1), (1, 2), (2, 6)] := .visit houter (.done 0)
  obtain ⟨-, -, -, -, hwalks⟩ := harises.walks_end
  obtain ⟨visits, hvisits, hunique, -, -, hrender⟩ := hwalks 0
  rw [h0] at hunique
  rw [hrender, ← hunique _ hwalk]
  refine ⟨harises, h0, hwalk, ?_⟩
  decide +kernel

end Forest

end LightHeaders
