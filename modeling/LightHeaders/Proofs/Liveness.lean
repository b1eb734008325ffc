import LightHeaders.Proofs.Descent
import LightHeaders.Proofs.Links

set_option autoImplicit false

/-! # What makes a component live

A component is live if something refers to it or, where it is a container, if a child of it is live. So
it is live by a component at the end of a row of children that passes through containers only
(`Workspace.Joined`), and to mark a component makes just those live that such a row leads from: the
component itself and, as far up as each is still a child of the next one and that is a container, those
above it (`History.isLive_iff_joined`).
-/

namespace LightHeaders

namespace Workspace

/-- A row of children leads from `a` to `c`, and all of the row before `c` are containers. -/
inductive Joined (ws : Workspace) (a : ComponentId) : ComponentId → Prop
  | refl : Joined ws a a
  | child {p c : ComponentId} (outer : Joined ws a p) (container : (ws.kind p).isContainer = true)
      (mem : c ∈ (ws.component p).childIds) : Joined ws a c

variable {ws ws' : Workspace} {a b c x : ComponentId}

theorem Joined.of_child (container : (ws.kind a).isContainer = true)
    (mem : b ∈ (ws.component a).childIds) (h : ws.Joined b c) : ws.Joined a c := by
  induction h with
  | refl => exact .child .refl container mem
  | child _ container' mem' ih => exact .child ih container' mem'

theorem Joined.toBelow (h : ws.Joined a c) : ws.Below a c := by
  induction h with
  | refl => exact .refl
  | child _ _ mem ih => exact .child ih mem

theorem Joined.alike (hkind : ∀ p, ws'.kind p = ws.kind p)
    (hchildren : ∀ p, (ws'.component p).childIds = (ws.component p).childIds) (h : ws.Joined a c) :
    ws'.Joined a c := by
  induction h with
  | refl => exact .refl
  | @child p _ _ container mem ih =>
    exact .child ih (by rw [hkind p, container]) (by rw [hchildren p]; exact mem)

namespace Sound

variable (hs : ws.Sound)

include hs

theorem isLive_of_joined (h : ws.Joined a c) (hc : ws.isLive c = true) : ws.isLive a = true := by
  induction h with
  | refl => exact hc
  | @child p c _ container mem ih =>
    refine ih ?_
    rw [hs.isLive_eq, Bool.or_eq_true, Bool.and_eq_true, List.any_eq_true]
    exact .inr ⟨container, c, mem, hc⟩

/-- **A component is live by one that is marked and joined to it.** -/
theorem isLive_iff (id : ComponentId) :
    ws.isLive id = true ↔ ∃ c, ws.Joined id c ∧ (ws.component c).referenced = true := by
  constructor
  · intro hlive
    -- down from the component, by the children that make it live
    induction id using hs.wellFounded_down.induction with
    | _ id ih =>
      rw [hs.isLive_eq, Bool.or_eq_true, Bool.and_eq_true, List.any_eq_true] at hlive
      rcases hlive with hmarked | ⟨hcontainer, child, hchild, hlive⟩
      · exact ⟨id, .refl, hmarked⟩
      · obtain ⟨c, hjoined, hmarked⟩ := ih child hchild hlive
        exact ⟨c, .of_child hcontainer hchild hjoined, hmarked⟩
  · rintro ⟨c, hjoined, hmarked⟩
    refine hs.isLive_of_joined hjoined ?_
    rw [hs.isLive_eq, hmarked, Bool.true_or]

/-- Upwards, a row of children goes on as long as each is a child of its parent and that is a
container. -/
theorem joined_iff : ws.Joined a x ↔ a = x ∨ ∃ p, (ws.component x).parent? = some p ∧
    x ∈ (ws.component p).childIds ∧ (ws.kind p).isContainer = true ∧ ws.Joined a p := by
  constructor
  · rintro (_ | ⟨outer, container, mem⟩)
    · exact .inl rfl
    · exact .inr ⟨_, (hs.of_mem_childIds mem).2.1, mem, container, outer⟩
  · rintro (rfl | ⟨p, -, mem, container, outer⟩)
    · exact .refl
    · exact .child outer container mem

/-- **Marking a component makes live what is joined to it**, and changes nothing for all others. -/
theorem isLive_mark (hx : x < ws.size) (id : ComponentId) :
    (ws.modify x (Edit.apply .referenced)).isLive id = true ↔
      ws.isLive id = true ∨ ws.Joined id x := by
  have hcomponent : ∀ p, (ws.modify x (Edit.apply .referenced)).component p =
      if p = x then { ws.component p with referenced := true } else ws.component p := by
    intro p
    simp only [component_modify_eq, and_iff_left hx]
    rfl
  have hsame : ∀ p, (ws.modify x (Edit.apply .referenced)).kind p = ws.kind p ∧
      ((ws.modify x (Edit.apply .referenced)).component p).childIds = (ws.component p).childIds := by
    intro p
    rw [kind, kind, hcomponent]
    split <;> exact ⟨rfl, rfl⟩
  have hjoined : ∀ c, (ws.modify x (Edit.apply .referenced)).Joined id c ↔ ws.Joined id c := fun c =>
    ⟨.alike (fun p => (hsame p).1.symm) fun p => (hsame p).2.symm,
      .alike (fun p => (hsame p).1) fun p => (hsame p).2⟩
  have hmarked : ∀ c, ((ws.modify x (Edit.apply .referenced)).component c).referenced = true ↔
      (ws.component c).referenced = true ∨ c = x := by
    intro c
    rw [hcomponent]
    split <;> simp [*]
  have hs' : (ws.modify x (Edit.apply .referenced)).Sound := hs.apply (.edit x .referenced) trivial
  rw [hs'.isLive_iff, hs.isLive_iff]
  simp only [hjoined, hmarked, and_or_left, exists_or, exists_eq_right]

end Sound

end Workspace

/-- **Liveness is reachability through containers.** In every history a component is live if and only if
a row of children through containers leads from it to one that is marked. Marking a component makes
live what such a row leads from to it, and leaves all else as it was: that are the component itself and,
of those above it, the parent if it is a container that still has it as a child, and so on upwards. -/
theorem History.isLive_iff_joined {A : Workspace → Call → Prop} {ws : Workspace} (h : History A ws) :
    (∀ id, ws.isLive id = true ↔ ∃ c, ws.Joined id c ∧ (ws.component c).referenced = true) ∧
    ∀ x < ws.size, ∃ ws', Build.markReferenced x ws = .ok () ws' ∧
      (∀ id, ws'.isLive id = true ↔ ws.isLive id = true ∨ ws.Joined id x) ∧
      (∀ id, ws.Joined id x → id ∈ ws.enclosing x) ∧
      ∀ id, ws.Joined id x ↔ id = x ∨ ∃ p, (ws.component x).parent? = some p ∧
        x ∈ (ws.component p).childIds ∧ (ws.kind p).isContainer = true ∧ ws.Joined id p := by
  have hs := h.sound
  refine ⟨hs.isLive_iff, fun x hx => ⟨_, rfl, hs.isLive_mark hx, ?_, fun _ => hs.joined_iff⟩⟩
  exact fun _ hjoined => hs.mem_enclosing_of_below hjoined.toBelow

/-- A function in a function, in a namespace that is declared a second time: to mark the inner function
makes nothing else live, to mark the outer one the namespace that was replaced, and not the file. -/
theorem History.isLive_iff_joined_replaced :
    let source := "namespace n\n function f\n  function g\nnamespace n\n"
    let disk : Disk := ⟨[(["work"], .directory), (["a.light"], .file (.text source))], ⟨"/work"⟩⟩
    let ws := Call.play [.addFile none "a" ⟨"/a.light"⟩, .load 0] (Workspace.new {} disk [.light])
    History (fun _ _ => True) ws ∧ (ws.component 0).childIds = [4] ∧
      (∃ ws', Build.markReferenced 3 ws = .ok () ws' ∧ ∀ id, ws'.isLive id = true ↔ id = 3) ∧
      ∃ ws', Build.markReferenced 2 ws = .ok () ws' ∧ ∀ id, ws'.isLive id = true ↔ id = 2 ∨ id = 1 := by
  intro source disk ws
  have hhistory : History (fun _ _ => True) ws := .play (by decide +kernel)
  obtain ⟨hsize, hlive, hfile, hspace, houter, hinner⟩ : ws.size = 5 ∧
      (∀ id < ws.size, (ws.component id).referenced = false) ∧ (ws.component 0).childIds = [4] ∧
      ((ws.component 1).parent? = some 0 ∧ (ws.component 1).childIds = [2] ∧
        (ws.kind 1).isContainer = true) ∧
      ((ws.component 2).parent? = some 1 ∧ (ws.kind 2).isContainer = false) ∧
      (ws.component 3).parent? = some 2 := by decide +kernel
  clear_value ws
  obtain ⟨hlives, hmark⟩ := hhistory.isLive_iff_joined
  have hdead : ∀ id, ¬ws.isLive id = true := by
    intro id hid
    obtain ⟨c, -, hc⟩ := (hlives id).mp hid
    by_cases hlt : c < ws.size
    · rw [hlive c hlt] at hc
      cases hc
    · rw [ws.component_of_size_le (not_lt.mp hlt)] at hc
      cases hc
  obtain ⟨-, -, -, -, hup₁⟩ := hmark 1 (by omega)
  obtain ⟨ws₂, hrun₂, hlive₂, -, hup₂⟩ := hmark 2 (by omega)
  obtain ⟨ws₃, hrun₃, hlive₃, -, hup₃⟩ := hmark 3 (by omega)
  refine ⟨hhistory, hfile, ⟨ws₃, hrun₃, fun id => ?_⟩, ws₂, hrun₂, fun id => ?_⟩
  · rw [hlive₃, hup₃, hinner, or_iff_right (hdead id)]
    simp [houter.2]
  · rw [hlive₂, hup₂, houter.1, or_iff_right (hdead id)]
    simp [hup₁, hspace, hfile]

end LightHeaders
