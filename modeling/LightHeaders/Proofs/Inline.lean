import LightHeaders.Proofs.Printer

set_option autoImplicit false

/-! # What stands in the text of what

The components whose text stands in the text of another one are those **inline** in it (`Inline`):
down the tree, through the children that are written where they stand. Two components have something
inline in both only if one is inline in the other (`Inline.linear`), so what is lifted out of a file
and what stands in it have nothing in common (`Inline.disjoint_of_forward`,
`Inline.disjoint_siblings`).

The components that are lifted out of a file are those that a walk down from it visits and that are
forwarded, each once, and none before one that is inside it (`Sound.nodup_lifted`,
`Sound.mem_lifted_iff`, `Sound.pairwise_lifted`).
-/

namespace LightHeaders

namespace Workspace

/-- The children of a component whose text stands in its own. What is below a member or an operation
is not written. -/
def bodyOf (ws : Workspace) (id : ComponentId) : List ComponentId :=
  match ws.kind id with
  | .space | .file _ => ws.inlineChildren id true
  | .function _ => ws.inlineChildren id false
  | _ => []

variable {child : ComponentId} {l : HeaderLine} {lines : List HeaderLine}

variable {ws : Workspace} {id : ComponentId} {print : ComponentId → Option (List HeaderLine)} {level : Nat}

theorem exists_of_mem_bodyOf (h : child ∈ ws.bodyOf id) : ∃ prune, child ∈ ws.inlineChildren id prune := by
  rw [bodyOf] at h
  split at h
  · exact ⟨true, h⟩
  · exact ⟨true, h⟩
  · exact ⟨false, h⟩
  · cases h

theorem of_mem_bodyOf (h : child ∈ ws.bodyOf id) :
    child ∈ (ws.component id).childIds ∧ ws.isFile child = false ∧
      (ws.component child).forward? = none := by
  obtain ⟨prune, h⟩ := exists_of_mem_bodyOf h
  exact ⟨mem_childIds_of_mem_inlineChildren h, isFile_of_mem_inlineChildren h,
    forward?_of_mem_inlineChildren h⟩

theorem bodyOf_of_isFile (h : ws.isFile id = true) : ws.bodyOf id = ws.inlineChildren id true := by
  rw [isFile] at h
  rw [bodyOf]
  generalize ws.kind id = kind at h
  cases kind with
  | file f => rfl
  | _ => cases h

/-- The text of `id` stands in the text of `root`. -/
inductive Inline (ws : Workspace) (root : ComponentId) : ComponentId → Prop
  | refl : Inline ws root root
  | step {parent id : ComponentId} (h : Inline ws root parent)
      (child : id ∈ ws.bodyOf parent) : Inline ws root id

section Inline

variable {ws : Workspace} {a b id x : ComponentId}

theorem Inline.le (hs : ws.Sound) (h : ws.Inline a x) : a ≤ x := by
  induction h with
  | refl => exact Nat.le_refl a
  | step _ child ih =>
    have hafter := (hs.of_mem_childIds (of_mem_bodyOf child).1).2.2
    exact le_trans ih (le_of_lt hafter)

theorem Inline.lt_size (hs : ws.Sound) (ha : a < ws.size) (h : ws.Inline a x) : x < ws.size := by
  cases h with
  | refl => exact ha
  | step _ child => exact (hs.of_mem_childIds (of_mem_bodyOf child).1).1

theorem Inline.fileOf?_eq (hs : ws.Sound) (h : ws.Inline a x) : ws.fileOf? x = ws.fileOf? a := by
  induction h with
  | refl => rfl
  | step _ child ih =>
    obtain ⟨hmem, hno, -⟩ := of_mem_bodyOf child
    exact (hs.fileOf?_child hmem hno).trans ih

theorem Inline.trans (hab : ws.Inline a b) (hbx : ws.Inline b x) : ws.Inline a x := by
  induction hbx with
  | refl => exact hab
  | step _ child ih => exact ih.step child

/-- **Of two components with something inline in both, one is inline in the other.** -/
theorem Inline.linear (hs : ws.Sound) (ha : ws.Inline a x) (hb : ws.Inline b x) :
    ws.Inline a b ∨ ws.Inline b a := by
  induction ha with
  | refl => exact .inr hb
  | step hp child ih =>
    cases hb with
    | refl => exact .inl (hp.step child)
    | step hq child' =>
      -- a component has one parent
      have hparent := (hs.of_mem_childIds (of_mem_bodyOf child).1).2.1
      rw [(hs.of_mem_childIds (of_mem_bodyOf child').1).2.1] at hparent
      cases hparent
      exact ih hq

theorem Inline.eq_of_forward (h : ws.Inline a b) (hb : (ws.component b).forward?.isSome = true) :
    a = b := by
  cases h with
  | refl => rfl
  | step _ child =>
    rw [(of_mem_bodyOf child).2.2] at hb
    cases hb

theorem Inline.eq_of_isFile (h : ws.Inline a b) (hb : ws.isFile b = true) : a = b := by
  cases h with
  | refl => rfl
  | step _ child =>
    rw [(of_mem_bodyOf child).2.1] at hb
    cases hb

theorem Inline.disjoint_of_forward (hs : ws.Sound) (hne : a ≠ b)
    (hforward : (ws.component a).forward?.isSome = true) (hforward' : (ws.component b).forward?.isSome = true)
    (h : ws.Inline a x) : ¬ws.Inline b x := by
  intro h'
  rcases h.linear hs h' with hab | hba
  · exact hne (hab.eq_of_forward hforward')
  · exact hne (hba.eq_of_forward hforward).symm

theorem Inline.not_parent (hs : ws.Sound) (ha : a ∈ (ws.component id).childIds) :
    ¬ws.Inline a id :=
  fun h => Nat.not_lt_of_le (h.le hs) (hs.of_mem_childIds ha).2.2

theorem Inline.of_ne (hs : ws.Sound) (hb : b ∈ (ws.component id).childIds) (h : ws.Inline a b)
    (hne : a ≠ b) : ws.Inline a id := by
  cases h with
  | refl => exact absurd rfl hne
  | step hp child =>
    have hparent := (hs.of_mem_childIds (of_mem_bodyOf child).1).2.1
    rw [(hs.of_mem_childIds hb).2.1] at hparent
    cases hparent
    exact hp

theorem Inline.disjoint_siblings (hs : ws.Sound) (ha : a ∈ (ws.component id).childIds)
    (hb : b ∈ (ws.component id).childIds) (hne : a ≠ b) (h : ws.Inline a x) : ¬ws.Inline b x := by
  intro h'
  rcases h.linear hs h' with hab | hba
  · exact Inline.not_parent hs ha (hab.of_ne hs hb hne)
  · exact Inline.not_parent hs hb (hba.of_ne hs ha hne.symm)

theorem Inline.disjoint_lifted (hs : ws.Sound) (hfile : ws.isFile id = true)
    (hforward : (ws.component a).forward?.isSome = true) (hnoFile : ws.isFile a = false)
    (hb : b ∈ (ws.component id).childIds) (hstays : (ws.component b).forward? = none)
    (h : ws.Inline a x) : ¬ws.Inline b x := by
  intro h'
  have hne : a ≠ b := by
    rintro rfl
    rw [hstays] at hforward
    cases hforward
  rcases h.linear hs h' with hab | hba
  · have heq := (hab.of_ne hs hb hne).eq_of_isFile hfile
    subst heq
    rw [hfile] at hnoFile
    cases hnoFile
  · exact hne (hba.eq_of_forward hforward).symm

end Inline

/-! ## Whose lines are printed -/

theorem exists_of_mem_printAll {ids : List ComponentId} (h : printAll print ids = some lines)
    (hl : l ∈ lines) :
    ∃ id ∈ ids, ∃ own, print id = some own ∧ l ∈ own := by
  induction ids generalizing lines with
  | nil =>
    cases h
    cases hl
  | cons id ids ih =>
    obtain ⟨first, hfirst, h⟩ := Option.bind_eq_some_iff.mp h
    obtain ⟨rest, hrest, h⟩ := Option.bind_eq_some_iff.mp h
    cases h
    rcases List.mem_append.mp hl with hl | hl
    · exact ⟨id, .head _, first, hfirst, hl⟩
    · obtain ⟨other, hother, own, hown, hl⟩ := ih hrest hl
      exact ⟨other, .tail _ hother, own, hown, hl⟩

/-- The text of a component's own line. -/
def ownText? (ws : Workspace) (id : ComponentId) : Option String :=
  match ws.kind id with
  | .space => some ("namespace " ++ (ws.component id).name ++ " \x7b")
  | .function s => ws.headText id s
  | .member m => ws.memberText id m
  | .operation o => (ws.component id).instruction?.bind fun source => ws.statementText id source o
  | .classType | .structType | .file _ => none

/-- The lines of a component: none, or its own one, those of its body, and the end of the body if it has
one. -/
theorem cases_of_printOwn (h : ws.printOwn print level id (ws.kind id) = some lines) :
    (lines = [] ∧ ws.bodyOf id = [] ∧ (ws.component id).instruction? = none) ∨
    ∃ text inner ends, ws.ownText? id = some text ∧ printAll print (ws.bodyOf id) = some inner ∧
      lines = lineAt level (some id) text :: (inner ++ ends) ∧ ∀ l ∈ ends, l = lineAt level none "\x7d" := by
  rw [bodyOf, ownText?]
  cases hk : ws.kind id with
  | space =>
    rw [hk] at h
    obtain ⟨inner, hinner, rfl⟩ := Option.map_eq_some_iff.mp h
    exact .inr ⟨_, inner, _, rfl, hinner, rfl, fun _ => List.mem_singleton.mp⟩
  | function s =>
    rw [hk] at h
    obtain ⟨head, hhead, h⟩ := Option.bind_eq_some_iff.mp h
    obtain ⟨inner, hinner, rfl⟩ := Option.map_eq_some_iff.mp h
    exact .inr ⟨head, inner, _, hhead, hinner, rfl, fun _ => List.mem_singleton.mp⟩
  | member m =>
    rw [hk] at h
    obtain ⟨text, htext, rfl⟩ := Option.map_eq_some_iff.mp h
    exact .inr ⟨text, [], [], htext, rfl, rfl, nofun⟩
  | operation o =>
    rw [hk, printOwn] at h
    split at h
    · next hsource =>
      cases h
      exact .inl ⟨rfl, rfl, hsource⟩
    · next source hsource =>
      obtain ⟨text, htext, rfl⟩ := Option.map_eq_some_iff.mp h
      exact .inr ⟨text, [], [], by rw [hsource]; exact htext, rfl, rfl, nofun⟩
  | _ =>
    rw [hk] at h
    cases h

theorem inline_of_mem_printWithin {depth : Nat} (h : ws.printWithin depth level id = some lines)
    (hl : l ∈ lines) {x : ComponentId} (hx : l.owner? = some x) : ws.Inline id x := by
  induction depth generalizing level id lines with
  | zero =>
    cases h
    cases hl
  | succ depth ih =>
    rcases cases_of_printOwn h with ⟨rfl, -⟩ | ⟨text, inner, ends, -, hinner, rfl, hends⟩
    · cases hl
    · rcases List.mem_cons.mp hl with rfl | hl
      · cases hx
        exact .refl
      · rcases List.mem_append.mp hl with hl | hl
        · obtain ⟨child, hchild, own, hown, hl⟩ := exists_of_mem_printAll hinner hl
          exact (Inline.refl.step hchild).trans (ih hown hl)
        · rw [hends l hl] at hx
          cases hx

/-! ## Levels -/

/-- The level of a component is one more than that of its parent, or none at the scope of a file. -/
theorem Sound.depthInFile_child (hs : ws.Sound) (h : child ∈ (ws.component id).childIds) :
    ws.depthInFile child = if (ws.component child).forward?.isSome || ws.isFile id then 0
      else ws.depthInFile id + 1 := by
  rw [depthInFile, hs.enclosing_eq child, (hs.of_mem_childIds h).2.1, depthInFile]
  simp only
  rw [hs.enclosing_eq id]
  rfl

theorem Sound.depthInFile_of_forward (hs : ws.Sound) (h : (ws.component id).forward?.isSome = true) :
    ws.depthInFile id = 0 := by
  rw [depthInFile, hs.enclosing_eq]
  cases (ws.component id).parent? with
  | none => rfl
  | some parent =>
    simp only
    rw [hs.enclosing_eq parent, levels, h]
    rfl

/-! ## What is lifted -/

/-- A walk down from `id` visits `x`: among the children to be written, and then below them. Only
files and namespaces leave out what is not live. -/
inductive Visits (ws : Workspace) : ComponentId → Bool → ComponentId → Prop
  | child {id x : ComponentId} {prune : Bool} (h : x ∈ ws.writtenChildren id prune) :
      Visits ws id prune x
  | deeper {id child x : ComponentId} {prune : Bool} (h : child ∈ ws.writtenChildren id prune)
      (hx : Visits ws child (ws.kind child = .space) x) : Visits ws id prune x

section Lifted

variable {ws : Workspace}

variable {depth : Nat} {id x : ComponentId} {prune : Bool}

theorem mem_liftedWithin_iff (hs : ws.Sound) (h : ws.size ≤ id + depth) : x ∈ ws.liftedWithin depth id prune ↔
      ws.Visits id prune x ∧ (ws.component x).forward?.isSome = true := by
  induction depth generalizing id prune with
  | zero =>
    have hnone : ∀ child, child ∉ ws.writtenChildren id prune := fun child hchild => by
      have hmem := mem_childIds_of_mem_writtenChildren hchild
      rw [Nat.add_zero] at h
      rw [ws.component_of_size_le h] at hmem
      cases hmem
    constructor
    · rintro ⟨⟩
    · rintro ⟨hvisits, -⟩
      cases hvisits with
      | child hchild | deeper hchild _ => exact absurd hchild (hnone _)
  | succ depth ih =>
    -- children come after their parent, so one level less is enough for them
    have hbelow : ∀ {child}, child ∈ ws.writtenChildren id prune → ws.size ≤ child + depth :=
      fun hchild => by
        have hlt := (hs.of_mem_childIds (mem_childIds_of_mem_writtenChildren hchild)).2.2
        grind
    rw [liftedWithin, List.mem_flatMap]
    constructor
    · rintro ⟨child, hchild, hx⟩
      rcases List.mem_append.mp hx with hx | hx
      · obtain ⟨hvisits, hforward⟩ := (ih (hbelow hchild)).mp hx
        exact ⟨.deeper hchild hvisits, hforward⟩
      · split at hx
        · next hforward =>
          rw [List.mem_singleton.mp hx]
          exact ⟨.child hchild, hforward⟩
        · cases hx
    · rintro ⟨hvisits, hforward⟩
      cases hvisits with
      | child hchild =>
        refine ⟨x, hchild, List.mem_append_right _ ?_⟩
        rw [if_pos hforward]
        exact List.mem_singleton.mpr rfl
      | @deeper _ child _ _ hchild hx =>
        exact ⟨child, hchild, List.mem_append_left _ ((ih (hbelow hchild)).mpr ⟨hx, hforward⟩)⟩

theorem Sound.mem_lifted_iff (hs : ws.Sound) : x ∈ ws.lifted id ↔
    ws.Visits id true x ∧ (ws.component x).forward?.isSome = true :=
  mem_liftedWithin_iff hs (Nat.sub_le_iff_le_add'.mp le_rfl)

theorem Sound.eq_of_mem_enclosing (hs : ws.Sound) {a b : ComponentId} (ha : a ∈ (ws.component id).childIds)
    (hb : b ∈ (ws.component id).childIds) (hax : a ∈ ws.enclosing x) (hbx : b ∈ ws.enclosing x) : a = b := by
  have hup : ∀ {a b : ComponentId}, a ∈ (ws.component id).childIds →
      b ∈ (ws.component id).childIds → a ∈ ws.enclosing b → a = b := by
    intro a b ha hb h
    rw [hs.enclosing_eq, (hs.of_mem_childIds hb).2.1] at h
    rcases List.mem_cons.mp h with rfl | h
    · rfl
    · exact absurd (hs.le_of_mem_enclosing h) (Nat.not_le_of_lt (hs.of_mem_childIds ha).2.2)
  rcases hs.enclosing_linear hax hbx with h | h
  · exact hup ha hb h
  · exact (hup hb ha h).symm

theorem mem_enclosing_of_mem_liftedWithin (hs : ws.Sound) (h : x ∈ ws.liftedWithin depth id prune) :
    id ∈ ws.enclosing x ∧ id < x := by
  induction depth generalizing id prune with
  | zero => cases h
  | succ depth ih =>
    rw [liftedWithin] at h
    obtain ⟨child, hchild, hx⟩ := List.mem_flatMap.mp h
    obtain ⟨-, hparent, hlt⟩ := hs.of_mem_childIds (mem_childIds_of_mem_writtenChildren hchild)
    have hup : id ∈ ws.enclosing child := by
      rw [hs.enclosing_eq child, hparent]
      exact .tail _ (hs.self_mem_enclosing id)
    rcases List.mem_append.mp hx with hx | hx
    · obtain ⟨hmem, hafter⟩ := ih hx
      exact ⟨hs.mem_enclosing_trans hup hmem, lt_trans hlt hafter⟩
    · split at hx
      · rw [List.mem_singleton.mp hx]
        exact ⟨hup, hlt⟩
      · cases hx

theorem pairwise_liftedWithin (hs : ws.Sound) (depth : Nat) (id : ComponentId) (prune : Bool) :
    (ws.liftedWithin depth id prune).Pairwise fun a b => a ∉ ws.enclosing b := by
  induction depth generalizing id prune with
  | zero => exact List.Pairwise.nil
  | succ depth ih =>
    rw [liftedWithin, List.pairwise_flatMap]
    constructor
    · intro child _
      refine List.pairwise_append.mpr ⟨ih child _, ?_, fun a ha b hb => ?_⟩
      · split
        · exact List.pairwise_singleton _ _
        · exact List.Pairwise.nil
      · -- what is inside a component was made after it
        split at hb
        · rw [List.mem_singleton.mp hb]
          exact fun hup => Nat.not_lt_of_le (hs.le_of_mem_enclosing hup)
            (mem_enclosing_of_mem_liftedWithin hs ha).2
        · cases hb
    · have hup : ∀ {child x : ComponentId}, x ∈ ws.liftedWithin depth child (ws.kind child = .space)
          ++ (if (ws.component child).forward?.isSome then [child] else []) →
          child ∈ ws.enclosing x := by
        intro child x hx
        rcases List.mem_append.mp hx with hx | hx
        · exact (mem_enclosing_of_mem_liftedWithin hs hx).1
        · split at hx
          · rw [List.mem_singleton.mp hx]
            exact hs.self_mem_enclosing child
          · cases hx
      have hnodup : (ws.writtenChildren id prune).Nodup := (hs.nodup id).filter _
      refine List.Pairwise.imp_of_mem (fun {a b} ha hb hne x hx y hy hxy => hne ?_) hnodup
      exact hs.eq_of_mem_enclosing (mem_childIds_of_mem_writtenChildren ha)
        (mem_childIds_of_mem_writtenChildren hb) (hs.mem_enclosing_trans (hup hx) hxy) (hup hy)

/-- **Nothing is lifted before what is inside it.** -/
theorem Sound.pairwise_lifted (hs : ws.Sound) (id : ComponentId) :
    (ws.lifted id).Pairwise fun a b => a ∉ ws.enclosing b :=
  pairwise_liftedWithin hs _ id true

theorem Sound.nodup_lifted (hs : ws.Sound) (id : ComponentId) : (ws.lifted id).Nodup := by
  refine (hs.pairwise_lifted id).imp ?_
  rintro a _ hup rfl
  exact hup (hs.self_mem_enclosing a)

/-- The text of `x` stands in what is lifted out of the file, or in the file. -/
def Rendered (ws : Workspace) (file x : ComponentId) : Prop :=
  (∃ y ∈ ws.lifted file, ws.Inline y x) ∨ ∃ y ∈ ws.bodyOf file, ws.Inline y x

end Lifted

end Workspace

end LightHeaders
