import LightHeaders.Proofs.CppText
import LightHeaders.Proofs.Inline

set_option autoImplicit false

/-! # The line of a component

A component that is written has a line of its own: the head of its body, its declaration or its
statement (`ownLine?`). The lines of a component are those of everything inline in it, and the ends of
bodies (`ownLine?_of_mem_printWithin`), and each component inline in it has its line among them
(`Sound.exists_line_of_inline`).

In a plain workspace no line has a line feed in it (`Plain.oneLine_ownText`).
-/

namespace LightHeaders

open Text

namespace Workspace

/-- The line of a component, at its level. -/
def ownLine? (ws : Workspace) (id : ComponentId) : Option HeaderLine :=
  (ws.ownText? id).map (lineAt (ws.depthInFile id) (some id))

theorem owner?_of_ownLine? {ws : Workspace} {id : ComponentId} {l : HeaderLine}
    (h : ws.ownLine? id = some l) : l.owner? = some id := by
  obtain ⟨_, -, rfl⟩ := Option.map_eq_some_iff.mp h
  rfl

/-! ## Whose lines they are -/

section Lines

variable {ws : Workspace}

variable {id : ComponentId} {i : InstructionId} {lines : List HeaderLine} {level : Nat}

/-- A line of a component is that of something inline in it, or the end of a body. -/
theorem ownLine?_of_mem_printWithin (hs : ws.Sound) {depth : Nat} (hno : ws.isFile id = false)
    (hlevel : ws.depthInFile id = level) (h : ws.printWithin depth level id = some lines) {l : HeaderLine}
    (hl : l ∈ lines) :
    (∃ n, l = lineAt n none "\x7d") ∨ ∃ x, ws.ownLine? x = some l := by
  induction depth generalizing level id lines with
  | zero =>
    cases h
    cases hl
  | succ depth ih =>
    rcases cases_of_printOwn h with ⟨rfl, -⟩ | ⟨text, inner, ends, htext, hinner, rfl, hends⟩
    · cases hl
    · rcases List.mem_cons.mp hl with rfl | hl
      · exact .inr ⟨id, by rw [ownLine?, htext, hlevel]; rfl⟩
      · rcases List.mem_append.mp hl with hl | hl
        · obtain ⟨child, hchild, own, hown, hl⟩ := exists_of_mem_printAll hinner hl
          obtain ⟨prune, hchild⟩ := exists_of_mem_bodyOf hchild
          refine ih (isFile_of_mem_inlineChildren hchild) ?_ hown hl
          rw [hs.depthInFile_child (mem_childIds_of_mem_inlineChildren hchild),
            forward?_of_mem_inlineChildren hchild, hno, hlevel]
          rfl
        · exact .inl ⟨level, hends l hl⟩

theorem subset_of_mem_printAll {print : ComponentId → Option (List HeaderLine)} {ids : List ComponentId}
    (h : printAll print ids = some lines) (hid : id ∈ ids) : ∃ own, print id = some own ∧ own ⊆ lines := by
  induction ids generalizing lines with
  | nil => cases hid
  | cons other ids ih =>
    obtain ⟨first, hfirst, h⟩ := Option.bind_eq_some_iff.mp h
    obtain ⟨rest, hrest, h⟩ := Option.bind_eq_some_iff.mp h
    cases h
    rcases List.mem_cons.mp hid with rfl | hid
    · exact ⟨first, hfirst, List.subset_append_left _ _⟩
    · obtain ⟨own, hown, hsub⟩ := ih hrest hid
      exact ⟨own, hown, fun l hl => List.mem_append_right _ (hsub hl)⟩

theorem Sound.subset_of_mem_bodyOf (hs : ws.Sound) {child : ComponentId} (h : ws.print level id = some lines)
    (hchild : child ∈ ws.bodyOf id) :
    ∃ own, ws.print (level + 1) child = some own ∧ own ⊆ lines := by
  obtain ⟨hlt, -, hafter⟩ := hs.of_mem_childIds (of_mem_bodyOf hchild).1
  rw [hs.print_eq (lt_trans hafter hlt)] at h
  rcases cases_of_printOwn h with ⟨-, hbody, -⟩ | ⟨text, inner, ends, -, hinner, rfl, -⟩
  · rw [hbody] at hchild
    cases hchild
  · obtain ⟨own, hown, hsub⟩ := subset_of_mem_printAll hinner hchild
    exact ⟨own, hown, fun l hl => .tail _ (List.mem_append_left _ (hsub hl))⟩

theorem Sound.exists_line (hs : ws.Sound) (hid : id < ws.size) (h : ws.print level id = some lines)
    (hi : (ws.component id).instruction? = some i) : ∃ l ∈ lines, l.owner? = some id := by
  rw [hs.print_eq hid] at h
  rcases cases_of_printOwn h with ⟨-, -, hnone⟩ | ⟨text, inner, ends, -, -, rfl, -⟩
  · rw [hi] at hnone
    cases hnone
  · exact ⟨_, .head _, rfl⟩

/-- **Everything inline in a component has its line among the lines of the component.** -/
theorem Sound.exists_line_of_inline (hs : ws.Sound) {x : ComponentId} (hid : id < ws.size)
    (h : ws.print level id = some lines) (hx : ws.Inline id x) (hi : (ws.component x).instruction? = some i) :
    ∃ l ∈ lines, l.owner? = some x := by
  obtain ⟨level', own, hown, hsub⟩ :
      ∃ level' own, ws.print level' x = some own ∧ own ⊆ lines := by
    clear hi
    induction hx with
    | refl => exact ⟨level, lines, h, List.Subset.refl _⟩
    | step _ child ih =>
      obtain ⟨level', own, hown, hsub⟩ := ih
      obtain ⟨inner, hinner, hsub'⟩ := hs.subset_of_mem_bodyOf hown child
      exact ⟨level' + 1, inner, hinner, fun l hl => hsub (hsub' hl)⟩
  obtain ⟨l, hl, howner⟩ := hs.exists_line (hx.lt_size hs hid) hown hi
  exact ⟨l, hsub hl, howner⟩

end Lines

/-! ## Lines without a line feed -/

section OneLine

variable {ws : Workspace}

theorem map_eq_of_mapM {α β : Type} {g : α → Option β} {xs : List α} {ys : List β}
    (h : xs.mapM g = some ys) : xs.map g = ys.map some := by
  induction xs generalizing ys with
  | nil =>
    cases h
    rfl
  | cons x xs ih =>
    rw [List.mapM_cons] at h
    obtain ⟨first, hfirst, h⟩ := Option.bind_eq_some_iff.mp h
    obtain ⟨rest, hrest, h⟩ := Option.bind_eq_some_iff.mp h
    cases h
    rw [List.map_cons, hfirst, ih hrest, List.map_cons]

theorem exists_of_mem_mapM {α β : Type} {g : α → Option β} {xs : List α} {ys : List β}
    (h : xs.mapM g = some ys) {y : β} (hy : y ∈ ys) : ∃ x ∈ xs, g x = some y :=
  List.mem_map.mp (map_eq_of_mapM h ▸ List.mem_map_of_mem hy)

namespace Plain

variable (hp : ws.Plain)

include hp

variable {id scope : ComponentId} {source : InstructionId} {s : String}

theorem oneLine_typeText (hs : ws.Sound) {type? : Option String}
    (htype : ∀ type, type? = some type → OneLine type)
    (h : ws.typeText scope type? = some s) : OneLine s := by
  cases type? with
  | none =>
    cases h
    decide
  | some type =>
    have htype := htype type rfl
    rw [typeText] at h
    split at h
    · next b hb =>
      cases h
      exact Language.oneLine_cpp htype hb
    · split at h
      · next target htarget =>
        cases h
        exact hp.oneLine_qualifiedName ((hs.targetAt?_fits htarget).oneLine htype).2
      · cases h

theorem oneLine_valueText (hs : ws.Sound) {pos : Nat}
    (h : ws.valueText scope source pos = some s) : OneLine s := by
  rw [valueText] at h
  split at h
  · cases h
    decide
  · next text htext =>
    have hone : OneLine text := by
      obtain ⟨i, hi, rfl⟩ := Option.map_eq_some_iff.mp htext
      obtain ⟨child, -, rfl⟩ := Option.map_eq_some_iff.mp hi
      exact (hp.forest child).name
    split at h
    · obtain ⟨t, ht, rfl⟩ := Option.map_eq_some_iff.mp h
      exact hp.oneLine_spelling ((hs.targetAt?_fits ht).oneLine hone)
    · cases h
      exact hone

theorem oneLine_targetText (hs : ws.Sound) {target? : Option Target}
    (htarget : ∀ t, target? = some t → t.OneLine ws) {name : String} (hname : OneLine name)
    (h : ws.targetText scope target? name = some s) : OneLine s := by
  obtain ⟨t, ht, rfl⟩ := Option.map_eq_some_iff.mp h
  refine hp.oneLine_spelling ?_
  cases target? with
  | some t' =>
    cases ht
    exact htarget t rfl
  | none => exact (hs.targetAt?_fits ht).oneLine hname

theorem oneLine_statementText (hs : ws.Sound) {o : Operation} (hk : ws.kind id = .operation o)
    (h : ws.statementText id source o = some s) : OneLine s := by
  have htarget : ∀ t, o.target? = some t → t.OneLine ws := fun t ht => hp.target id o t hk ht
  have hone := hp.kind id
  rw [hk, Kind.OneLine] at hone
  rw [statementText] at h
  split at h
  · next callee haction =>
    rw [haction] at hone
    obtain ⟨function, hfunction, h⟩ := Option.bind_eq_some_iff.mp h
    obtain ⟨arguments, harguments, h⟩ := Option.bind_eq_some_iff.mp h
    cases h
    have hglue : OneLine (glue ", " arguments) := by
      refine oneLine_glue (by decide) fun text htext => ?_
      obtain ⟨pos, -, hpos⟩ := exists_of_mem_mapM harguments htext
      exact hp.oneLine_valueText hs hpos
    exact (((hp.oneLine_targetText hs htarget hone hfunction).append (by decide)).append
      hglue).append (by decide)
  · next name haction =>
    rw [haction] at hone
    obtain ⟨member, hmember, h⟩ := Option.bind_eq_some_iff.mp h
    obtain ⟨value, hvalue, h⟩ := Option.bind_eq_some_iff.mp h
    cases h
    exact (((hp.oneLine_targetText hs htarget hone hmember).append (by decide)).append
      (hp.oneLine_valueText hs hvalue)).append (by decide)
  · split at h
    · cases h
      decide
    · obtain ⟨value, hvalue, rfl⟩ := Option.map_eq_some_iff.mp h
      exact (OneLine.append (by decide) (hp.oneLine_valueText hs hvalue)).append (by decide)

theorem oneLine_memberText (hs : ws.Sound) {m : Member} (hk : ws.kind id = .member m)
    (h : ws.memberText id m = some s) : OneLine s := by
  have hone := hp.kind id
  rw [hk] at hone
  have hname := hp.name id (by rw [isFile, hk]; rfl)
  obtain ⟨type, htype, h⟩ := Option.bind_eq_some_iff.mp h
  have hstart : OneLine (type ++ " " ++ (ws.component id).name) :=
    ((hp.oneLine_typeText hs (by rintro _ ⟨⟩; exact hone) htype).append (by decide)).append hname
  dsimp only at h
  split at h
  · obtain ⟨value, hvalue, h⟩ := Option.bind_eq_some_iff.mp h
    cases h
    exact ((hstart.append (by decide)).append (hp.oneLine_valueText hs hvalue)).append (by decide)
  · cases h
    exact hstart.append (by decide)

theorem oneLine_headText (hs : ws.Sound) {s : Signature} (hk : ws.kind id = .function s) {head : String}
    (h : ws.headText id s = some head) :
    OneLine head := by
  have hone := hp.kind id
  rw [hk] at hone
  have hname := hp.name id (by rw [isFile, hk]; rfl)
  obtain ⟨result, hresult, h⟩ := Option.bind_eq_some_iff.mp h
  obtain ⟨params, hparams, h⟩ := Option.bind_eq_some_iff.mp h
  cases h
  have hglue : OneLine (glue ", " params) := by
    refine oneLine_glue (by decide) fun text htext => ?_
    obtain ⟨param, hparam, htext⟩ := exists_of_mem_mapM hparams htext
    obtain ⟨type, htype, rfl⟩ := Option.map_eq_some_iff.mp htext
    refine ((hp.oneLine_typeText hs (fun type htype => ?_) htype).append (by decide)).append ?_
    · exact Build.oneLine_memberType? hp htype
    · exact hp.name param (hp.param id s hk param hparam).2
  exact (((((Build.oneLine_specifiers _).append (hp.oneLine_typeText hs hone hresult)).append
    (by decide)).append hname).append (by decide) |>.append hglue).append (by decide)

/-- **The line of a component has no line feed in it.** -/
theorem oneLine_ownText (hs : ws.Sound) (h : ws.ownText? id = some s) : OneLine s := by
  rw [ownText?] at h
  split at h
  · next hk =>
    cases h
    exact (OneLine.append (by decide) (hp.name id (by rw [isFile, hk]; rfl))).append (by decide)
  · next hk => exact hp.oneLine_headText hs hk h
  · next hk => exact hp.oneLine_memberText hs hk h
  · next hk =>
    obtain ⟨source, -, h⟩ := Option.bind_eq_some_iff.mp h
    exact hp.oneLine_statementText hs hk h
  · cases h
  · cases h
  · cases h

end Plain

end OneLine

end Workspace

end LightHeaders
