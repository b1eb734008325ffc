import LightHeaders.Proofs.Mentions

set_option autoImplicit false

/-! # Lines of descent

A component is **below** another if a row of children leads from that one to it (`Workspace.Below`).
What was replaced by a later declaration of the same name is below nothing any more, though it still
names its parent.

What is below a component is known by the names on the way (`Workspace.namesWithin`): they lead to it
(`Sound.childAt?_namesWithin`), so no two components below one have the same names on the way
(`Sound.eq_of_namesWithin`).
-/

namespace LightHeaders

namespace Workspace

variable (ws : Workspace)

/-- A row of children leads from `a` to `c`. -/
inductive Below (a : ComponentId) : ComponentId → Prop
  | refl : Below a a
  | child {p c : ComponentId} (outer : Below a p) (mem : c ∈ (ws.component p).childIds) : Below a c

/-- The components around `c` that are inside `a`, the nearest first; `c` is one of them. -/
def within (a c : ComponentId) : List ComponentId := (ws.enclosing c).takeWhile (· ≠ a)

/-- The names on the way from `a` down to `c`. -/
def namesWithin (a c : ComponentId) : List String :=
  (ws.within a c).reverse.map fun b => (ws.component b).name

variable {ws}

variable {a b c : ComponentId}

theorem ne_of_mem_within (h : b ∈ ws.within a c) : b ≠ a := by
  simpa using List.mem_takeWhile_imp h

theorem Below.trans (h : ws.Below a b) (h' : ws.Below b c) : ws.Below a c := by
  induction h' with
  | refl => exact h
  | child _ mem ih => exact .child ih mem

theorem below_of_declaredIn {f x : ComponentId} (h : ws.DeclaredIn f x) : ws.Below f x := by
  induction h with
  | child mem _ => exact .child .refl mem
  | deeper _ mem _ ih => exact .child ih mem

theorem childAt?_append (a : ComponentId) (names names' : List String) :
    ws.childAt? a (names ++ names') = (ws.childAt? a names).bind fun b => ws.childAt? b names' := by
  induction names generalizing a with
  | nil => rfl
  | cons name names ih =>
    rw [List.cons_append, childAt?, childAt?]
    cases (ws.component a).child? name with
    | none => rfl
    | some child => exact ih child

namespace Sound

variable (hs : ws.Sound)

include hs

/-! ## Up and down -/

variable {a b c p : ComponentId} {names : List String}

theorem enclosing_child (hc : c ∈ (ws.component p).childIds) :
    ws.enclosing c = c :: ws.enclosing p := by
  rw [hs.enclosing_eq, (hs.of_mem_childIds hc).2.1]

theorem mem_enclosing_of_below (h : ws.Below a c) : a ∈ ws.enclosing c := by
  induction h with
  | refl => exact hs.self_mem_enclosing a
  | child _ mem ih =>
    rw [hs.enclosing_child mem]
    exact .tail _ ih

theorem enclosing_antisymm (h : a ∈ ws.enclosing b) (h' : b ∈ ws.enclosing a) :
    a = b :=
  le_antisymm (hs.le_of_mem_enclosing h) (hs.le_of_mem_enclosing h')

/-- **A row of children passes all that is between its ends.** -/
theorem below_of_between (h : ws.Below a c) (hb : b ∈ ws.enclosing c)
    (ha : a ∈ ws.enclosing b) : ws.Below a b ∧ ws.Below b c := by
  induction h with
  | refl =>
    obtain rfl := hs.enclosing_antisymm ha hb
    exact ⟨.refl, .refl⟩
  | @child p c outer mem ih =>
    rw [hs.enclosing_child mem] at hb
    rcases List.mem_cons.mp hb with rfl | hb
    · exact ⟨.child outer mem, .refl⟩
    · obtain ⟨hab, hbp⟩ := ih hb
      exact ⟨hab, .child hbp mem⟩

theorem below_of_childAt? (h : ws.childAt? a names = some c) : ws.Below a c := by
  induction names generalizing a with
  | nil =>
    cases h
    exact .refl
  | cons name names ih =>
    rw [childAt?] at h
    split at h
    · next child hchild => exact (Below.child .refl (hs.child hchild).2.2.2).trans (ih h)
    · cases h

/-- As many steps up as there are names lead back. -/
theorem drop_enclosing_of_childAt?
    (h : ws.childAt? a names = some c) : (ws.enclosing c).drop names.length = ws.enclosing a := by
  induction names generalizing a with
  | nil =>
    cases h
    rfl
  | cons name names ih =>
    rw [childAt?] at h
    split at h
    · next child hchild =>
      have hdrop := ih h
      rw [hs.enclosing_child (hs.child hchild).2.2.2] at hdrop
      rw [List.length_cons, ← List.drop_drop, hdrop, List.drop_one, List.tail_cons]
    · cases h

theorem eq_of_childAt? (ha : ws.childAt? a names = some c) (hb : ws.childAt? b names = some c) : a = b := by
  have heq := (hs.drop_enclosing_of_childAt? ha).symm.trans (hs.drop_enclosing_of_childAt? hb)
  rw [hs.enclosing_eq a, hs.enclosing_eq b] at heq
  exact (List.cons.inj heq).1

/-! ## The names on the way -/

theorem within_self (a : ComponentId) : ws.within a a = [] := by
  rw [within, hs.enclosing_eq]
  simp

theorem within_child (h : ws.Below a p)
    (hc : c ∈ (ws.component p).childIds) : ws.within a c = c :: ws.within a p := by
  have hlater := (hs.of_mem_childIds hc).2.2
  have hne : c ≠ a := fun heq =>
    Nat.not_le_of_lt hlater (heq ▸ hs.le_of_mem_enclosing (hs.mem_enclosing_of_below h))
  rw [within, hs.enclosing_child hc, List.takeWhile_cons_of_pos (by simpa using hne), within]

theorem namesWithin_child (h : ws.Below a p) (hc : c ∈ (ws.component p).childIds) :
    ws.namesWithin a c = ws.namesWithin a p ++ [(ws.component c).name] := by
  simp [namesWithin, hs.within_child h hc]

/-- **The names on the way lead to a component.** -/
theorem childAt?_namesWithin (h : ws.Below a c) :
    ws.childAt? a (ws.namesWithin a c) = some c := by
  induction h with
  | refl => simp [namesWithin, hs.within_self, childAt?]
  | child outer mem ih =>
    rw [hs.namesWithin_child outer mem, childAt?_append, ih, Option.bind_some, childAt?,
      hs.listed mem]
    rfl

/-- **No two components below one have the same names on the way.** -/
theorem eq_of_namesWithin {d : ComponentId} (hc : ws.Below a c) (hd : ws.Below a d)
    (h : ws.namesWithin a c = ws.namesWithin a d) : c = d := by
  have heq := hs.childAt?_namesWithin hc
  rw [h, hs.childAt?_namesWithin hd] at heq
  exact (Option.some.inj heq).symm

/-- Around a component there are first those inside another one, and then that one and those around
it. -/
theorem enclosing_eq_append (h : ws.Below a c) :
    ws.enclosing c = ws.within a c ++ ws.enclosing a := by
  induction h with
  | refl => rw [hs.within_self, List.nil_append]
  | child outer mem ih => rw [hs.enclosing_child mem, hs.within_child outer mem, ih, List.cons_append]

end Sound

end Workspace

end LightHeaders
