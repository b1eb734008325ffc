import LightHeaders.Proofs.Changes
import LightHeaders.Workspace.Rendering
import Mathlib.Data.List.Basic

set_option autoImplicit false

/-! # The bounds of walks up and down

In a sound workspace a component is made after its parent, so a walk up from `id` ends after at most
`id` steps and a walk down after at most as many as there are components from `id` on. The bounds
of `enclosing`, `isLive` and `lifted` are therefore never met, and each of them is given by an
equation without a bound (`enclosing_eq`, `isLive_eq`, `liftedWithin_eq`).

What stands above a component never changes, so its file does not either (`Extends.fileOf?_eq`).
-/

namespace LightHeaders

namespace Workspace

variable {ws : Workspace}

/-! ## Up -/

variable {prune : Bool} {a b c file id : ComponentId} {bound depth : Nat} {ws' : Workspace}

theorem enclosing_of_components (h : ws'.components = ws.components)
    (id : ComponentId) : ws'.enclosing id = ws.enclosing id := by
  suffices hsame : ∀ bound id, ws'.enclosingWithin bound id = ws.enclosingWithin bound id from
    hsame (id + 1) id
  intro bound
  induction bound with
  | zero => exact fun _ => rfl
  | succ bound ih =>
    intro id
    simp only [enclosingWithin, component, h, ih]

theorem owner?_of_components (h : ws'.components = ws.components)
    (id : ComponentId) : ws'.owner? id = ws.owner? id := by
  simp only [owner?, outermost, enclosing_of_components h, component, h]

/-- A bound that a walk up does not meet makes no difference. -/
theorem Sound.enclosingWithin_eq (hs : ws.Sound)
    (h : id < bound) : ws.enclosingWithin bound id = ws.enclosing id := by
  suffices hsame : ∀ (id : ComponentId) {b b' : Nat}, id < b → id < b' →
      ws.enclosingWithin b id = ws.enclosingWithin b' id from hsame id h (Nat.lt_succ_self id)
  intro id
  induction id using Nat.strongRecOn with
  | ind id ih =>
    intro b b' hb hb'
    cases b with
    | zero => exact absurd hb (Nat.not_lt_zero _)
    | succ b =>
      cases b' with
      | zero => exact absurd hb' (Nat.not_lt_zero _)
      | succ b' =>
        rw [enclosingWithin, enclosingWithin]
        cases hp : (ws.component id).parent? with
        | none => rfl
        | some parent =>
          have hlt := hs.parent_lt hp
          have hle : parent < b := Nat.lt_of_lt_of_le hlt (Nat.le_of_lt_succ hb)
          have hle' : parent < b' := Nat.lt_of_lt_of_le hlt (Nat.le_of_lt_succ hb')
          simp only
          rw [ih parent hlt hle hle']

/-- **Those above a component are its parent and those above that.** -/
theorem Sound.enclosing_eq (hs : ws.Sound) (id : ComponentId) :
    ws.enclosing id = id :: match (ws.component id).parent? with
      | some parent => ws.enclosing parent
      | none => [] := by
  rw [enclosing, enclosingWithin]
  cases hp : (ws.component id).parent? with
  | none => rfl
  | some parent =>
    simp only
    rw [hs.enclosingWithin_eq (hs.parent_lt hp)]

theorem Sound.self_mem_enclosing (hs : ws.Sound) (id : ComponentId) : id ∈ ws.enclosing id := by
  rw [hs.enclosing_eq]
  exact .head _

theorem Sound.le_of_mem_enclosing (hs : ws.Sound) (h : a ∈ ws.enclosing id) : a ≤ id := by
  induction id using Nat.strongRecOn with
  | ind id ih =>
    rw [hs.enclosing_eq] at h
    rcases List.mem_cons.mp h with rfl | h
    · exact Nat.le_refl _
    · cases hp : (ws.component id).parent? with
      | none =>
        rw [hp] at h
        cases h
      | some parent =>
        rw [hp] at h
        have hlt := hs.parent_lt hp
        exact Nat.le_of_lt (Nat.lt_of_le_of_lt (ih parent hlt h) hlt)

theorem Sound.mem_enclosing_trans (hs : ws.Sound) (h : a ∈ ws.enclosing b)
    (hb : b ∈ ws.enclosing id) : a ∈ ws.enclosing id := by
  induction id using Nat.strongRecOn with
  | ind id ih =>
    rw [hs.enclosing_eq] at hb
    rcases List.mem_cons.mp hb with rfl | hb
    · exact h
    · cases hp : (ws.component id).parent? with
      | none =>
        rw [hp] at hb
        cases hb
      | some parent =>
        rw [hp] at hb
        rw [hs.enclosing_eq, hp]
        exact .tail _ (ih parent (hs.parent_lt hp) hb)

theorem Sound.enclosing_linear (hs : ws.Sound) (ha : a ∈ ws.enclosing id)
    (hb : b ∈ ws.enclosing id) : a ∈ ws.enclosing b ∨ b ∈ ws.enclosing a := by
  induction id using Nat.strongRecOn with
  | ind id ih =>
    have hcases : ∀ {x}, x ∈ ws.enclosing id → x = id ∨
        ∃ parent, (ws.component id).parent? = some parent ∧ x ∈ ws.enclosing parent := by
      intro x hx
      rw [hs.enclosing_eq] at hx
      cases hp : (ws.component id).parent? with
      | none =>
        rw [hp] at hx
        exact .inl (List.mem_singleton.mp hx)
      | some parent =>
        rw [hp] at hx
        exact (List.mem_cons.mp hx).imp_right fun hx => ⟨parent, rfl, hx⟩
    rcases hcases ha with rfl | ⟨parent, hp, haup⟩
    · exact .inr hb
    · rcases hcases hb with rfl | ⟨parent', hp', hbup⟩
      · exact .inl ha
      · rw [hp] at hp'
        cases hp'
        exact ih parent (hs.parent_lt hp) haup hbup

theorem Sound.outermost_eq (hs : ws.Sound) (id : ComponentId) :
    ws.outermost id = match (ws.component id).parent? with
      | some parent => ws.outermost parent
      | none => id := by
  rw [outermost, hs.enclosing_eq]
  cases (ws.component id).parent? with
  | none => rfl
  | some parent =>
    simp only [outermost]
    rw [hs.enclosing_eq parent, List.getLast?_cons_cons]
    rfl

theorem Sound.parent?_outermost (hs : ws.Sound) (id : ComponentId) :
    (ws.component (ws.outermost id)).parent? = none := by
  induction id using Nat.strongRecOn with
  | ind id ih =>
    rw [hs.outermost_eq]
    cases hp : (ws.component id).parent? with
    | none => exact hp
    | some parent => exact ih parent (hs.parent_lt hp)

theorem Sound.outermost_le (hs : ws.Sound) (id : ComponentId) : ws.outermost id ≤ id := by
  induction id using Nat.strongRecOn with
  | ind id ih =>
    rw [hs.outermost_eq]
    cases hp : (ws.component id).parent? with
    | none => exact Nat.le_refl id
    | some parent =>
      have hlt := hs.parent_lt hp
      exact Nat.le_trans (ih parent hlt) (Nat.le_of_lt hlt)

/-! ### The file around a component -/

theorem Sound.fileOf?_eq (hs : ws.Sound) (id : ComponentId) :
    ws.fileOf? id = if ws.isFile id then some id else
      match (ws.component id).parent? with
      | some parent => ws.fileOf? parent
      | none => none := by
  rw [fileOf?, hs.enclosing_eq, List.find?_cons]
  cases ws.isFile id with
  | true => rfl
  | false =>
    cases (ws.component id).parent? with
    | none | some => rfl

theorem Sound.fileOf?_self (hs : ws.Sound) (h : ws.isFile id = true) :
    ws.fileOf? id = some id := by
  rw [hs.fileOf?_eq, if_pos h]

theorem isFile_of_fileOf? (h : ws.fileOf? id = some file) :
    ws.isFile file = true :=
  List.find?_some h

theorem isFile_of_file? {file : SourceFile}
    (h : (ws.component id).file? = some file) : ws.isFile id = true := by
  rw [isFile, kind, Kind.isFile, ← Component.file?, h]
  rfl

theorem lt_size_of_isFile (h : ws.isFile id = true) : id < ws.size := by
  refine Nat.lt_of_not_le fun hle => ?_
  rw [isFile, kind, component_of_size_le ws hle] at h
  cases h

theorem Sound.lt_size_of_fileOf? (hs : ws.Sound) (h : ws.fileOf? id = some file) : id < ws.size := by
  refine Nat.lt_of_not_le fun hle => ?_
  rw [hs.fileOf?_eq, isFile, kind, component_of_size_le ws hle] at h
  cases h

theorem Sound.fileOf?_child (hs : ws.Sound) (hc : c ∈ (ws.component id).childIds)
    (hfile : ws.isFile c = false) :
    ws.fileOf? c = ws.fileOf? id := by
  rw [hs.fileOf?_eq c, hfile, (hs.of_mem_childIds hc).2.1]
  rfl

/-- What stands above a component never changes. -/
theorem Extends.enclosing_eq (h : ws.Extends ws') (hs : ws.Sound) (hs' : ws'.Sound) (hid : id < ws.size) :
    ws'.enclosing id = ws.enclosing id := by
  induction id using Nat.strongRecOn with
  | ind id ih =>
    rw [hs.enclosing_eq, hs'.enclosing_eq, h.parent? hid]
    cases hp : (ws.component id).parent? with
    | none => rfl
    | some parent =>
      have hlt := hs.parent_lt hp
      simp only
      rw [ih parent hlt (Nat.lt_trans hlt hid)]

theorem Extends.fileOf?_eq (h : ws.Extends ws') (hs : ws.Sound) (hs' : ws'.Sound) (hid : id < ws.size) :
    ws'.fileOf? id = ws.fileOf? id := by
  induction id using Nat.strongRecOn with
  | ind id ih =>
    rw [hs.fileOf?_eq, hs'.fileOf?_eq, h.parent? hid, h.isFile hid]
    cases hp : (ws.component id).parent? with
    | none => rfl
    | some parent =>
      have hlt := hs.parent_lt hp
      simp only
      rw [ih parent hlt (Nat.lt_trans hlt hid)]

/-! ## Down -/

theorem any_congr {α : Type} {l : List α} {p q : α → Bool} (h : ∀ a ∈ l, p a = q a) :
    l.any p = l.any q := by
  calc l.any p = (l.map p).any id := by rw [List.any_map]; rfl
    _ = (l.map q).any id := by rw [List.map_congr_left h]
    _ = l.any q := by rw [List.any_map]; rfl

theorem liveWithin_of_size_le (bound : Nat) (h : ws.size ≤ id) :
    ws.liveWithin bound id = false := by
  cases bound with
  | zero => rfl
  | succ bound =>
    rw [liveWithin, component_of_size_le ws h]
    rfl

/-- A bound that a walk down does not meet makes no difference. -/
theorem Sound.liveWithin_eq (hs : ws.Sound)
    (h : ws.size ≤ id + bound) : ws.liveWithin bound id = ws.isLive id := by
  suffices hsame : ∀ (b b' : Nat) (id : ComponentId), ws.size ≤ id + b → ws.size ≤ id + b' →
      ws.liveWithin b id = ws.liveWithin b' id from
    hsame bound (ws.size - id) id h (by grind)
  intro b
  induction b with
  | zero =>
    intro b' id hb _
    rw [Nat.add_zero] at hb
    rw [liveWithin_of_size_le b' hb, liveWithin_of_size_le 0 hb]
  | succ b ih =>
    intro b' id hb hb'
    cases b' with
    | zero =>
      rw [Nat.add_zero] at hb'
      rw [liveWithin_of_size_le _ hb', liveWithin_of_size_le _ hb']
    | succ b' =>
      have hany : (ws.component id).childIds.any (ws.liveWithin b)
          = (ws.component id).childIds.any (ws.liveWithin b') := by
        refine any_congr fun c hc => ?_
        have hlt : id + 1 ≤ c := (hs.of_mem_childIds hc).2.2
        exact ih b' c (by grind) (by grind)
      rw [liveWithin, liveWithin, hany]

/-- **A component is live by itself or, if it is a container, by what is declared in it.** -/
theorem Sound.isLive_eq (hs : ws.Sound) (id : ComponentId) :
    ws.isLive id = ((ws.component id).referenced ||
      ((ws.component id).kind.isContainer && (ws.component id).childIds.any ws.isLive)) := by
  rw [← hs.liveWithin_eq (Nat.le_trans (Nat.le_add_left ws.size id)
    (Nat.add_le_add_left (Nat.le_succ ws.size) id)), liveWithin]
  have hany : (ws.component id).childIds.any (ws.liveWithin ws.size)
      = (ws.component id).childIds.any ws.isLive :=
    any_congr fun c _ => hs.liveWithin_eq (Nat.le_add_left _ _)
  rw [hany]

theorem liftedWithin_of_size_le (depth : Nat) (h : ws.size ≤ id)
    (prune : Bool) : ws.liftedWithin depth id prune = [] := by
  cases depth with
  | zero => rfl
  | succ depth =>
    rw [liftedWithin, writtenChildren, component_of_size_le ws h]
    rfl

theorem mem_childIds_of_mem_writtenChildren
    (h : c ∈ ws.writtenChildren id prune) : c ∈ (ws.component id).childIds :=
  (List.mem_filter.mp h).1

theorem isFile_of_mem_writtenChildren (h : c ∈ ws.writtenChildren id prune) : ws.isFile c = false := by
  have hp := (List.mem_filter.mp h).2
  rw [Bool.and_eq_true, Bool.not_eq_true', isSetApart] at hp
  rw [isFile]
  split at hp
  · cases hp.1
  · next m hm =>
    rw [hm]
    rfl
  · next hno _ =>
    cases hk : ws.kind c with
    | file f => exact absurd hk (hno f)
    | _ => rfl

/-- **The forwarded components below a component**, without a bound. -/
theorem Sound.liftedWithin_eq (hs : ws.Sound) (h : ws.size ≤ id + depth) (prune : Bool) :
    ws.liftedWithin depth id prune = (ws.writtenChildren id prune).flatMap fun child =>
      ws.liftedWithin (ws.size - child) child (ws.kind child = .space)
        ++ if (ws.component child).forward?.isSome then [child] else [] := by
  suffices hsame : ∀ (d d' : Nat) (id : ComponentId) (prune : Bool), ws.size ≤ id + d →
      ws.size ≤ id + d' → ws.liftedWithin d id prune = ws.liftedWithin d' id prune by
    rw [hsame depth (ws.size + 1) id prune h (Nat.le_trans (Nat.le_succ _) (Nat.le_add_left _ _)),
      liftedWithin]
    refine List.flatMap_congr fun child _ => ?_
    rw [hsame ws.size (ws.size - child) child _ (Nat.le_add_left _ _) (by grind)]
  intro d
  induction d with
  | zero =>
    intro d' id prune hd _
    rw [Nat.add_zero] at hd
    rw [liftedWithin_of_size_le d' hd, liftedWithin_of_size_le 0 hd]
  | succ d ih =>
    intro d' id prune hd hd'
    cases d' with
    | zero =>
      rw [Nat.add_zero] at hd'
      rw [liftedWithin_of_size_le _ hd', liftedWithin_of_size_le _ hd']
    | succ d' =>
      rw [liftedWithin, liftedWithin]
      refine List.flatMap_congr fun child hchild => ?_
      have hlt : id + 1 ≤ child :=
        (hs.of_mem_childIds (mem_childIds_of_mem_writtenChildren hchild)).2.2
      rw [ih d' child _ (by grind) (by grind)]

theorem Sound.fileOf?_of_mem_lifted (hs : ws.Sound) {x : ComponentId}
    (h : x ∈ ws.liftedWithin depth id prune) :
    ws.isFile x = false ∧ ws.fileOf? x = ws.fileOf? id := by
  induction depth generalizing id prune with
  | zero => cases h
  | succ depth ih =>
    rw [liftedWithin] at h
    obtain ⟨child, hchild, hx⟩ := List.mem_flatMap.mp h
    have hfile := isFile_of_mem_writtenChildren hchild
    have hsame := hs.fileOf?_child (mem_childIds_of_mem_writtenChildren hchild) hfile
    rcases List.mem_append.mp hx with hx | hx
    · rw [← hsame]
      exact ih hx
    · split at hx
      · rw [List.mem_singleton.mp hx]
        exact ⟨hfile, hsame⟩
      · cases hx

/-! ## The nearest component around -/

/-- The nearest component of the given sort, among one and those above it. -/
inductive Nearest (ws : Workspace) (P : ComponentId → Prop) : ComponentId → ComponentId → Prop
  | here {a : ComponentId} (holds : P a) : Nearest ws P a a
  | above {a p b : ComponentId} (fails : ¬P a) (parent : (ws.component a).parent? = some p)
      (outer : Nearest ws P p b) : Nearest ws P a b

section

variable {P : ComponentId → Prop}

theorem Nearest.holds (h : ws.Nearest P a b) : P b := by
  induction h with
  | here holds => exact holds
  | above _ _ _ ih => exact ih

theorem Nearest.unique {c : ComponentId} (hb : ws.Nearest P a b) (hc : ws.Nearest P a c) : b = c := by
  induction hb with
  | here holds =>
    cases hc with
    | here => rfl
    | above fails => exact absurd holds fails
  | above fails parent _ ih =>
    cases hc with
    | here holds => exact absurd holds fails
    | above _ parent' outer =>
      rw [parent] at parent'
      cases parent'
      exact ih outer

end

end Workspace

end LightHeaders
