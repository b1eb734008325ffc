import LightHeaders.Proofs.Bare
import LightHeaders.Proofs.Inline

set_option autoImplicit false

/-! # Clearing

Clearing a component takes the text and the mark of being written from what it reaches, and it goes below a
component only if that was written (`Workspace.Swept`). Nothing else is changed
(`Build.wiped_of_clear`): what is below one child is not below another one, so clearing one does not get in
the way of the next.
-/

namespace LightHeaders

/-! ## What clearing reaches -/

namespace Workspace

/-- What clearing `root` reaches: `root` itself, and the children of what is reached and was written. -/
inductive Swept (ws : Workspace) (root : ComponentId) : ComponentId → Prop
  | self : Swept ws root root
  | child {parent z : ComponentId} (h : Swept ws root parent)
      (written : (ws.component parent).written = true) (mem : z ∈ (ws.component parent).childIds) :
      Swept ws root z

section Swept

variable {ws ws' : Workspace} {root z : ComponentId}

variable {child : ComponentId}

theorem Sound.mem_enclosing_child (hs : ws.Sound) {id : ComponentId}
    (h : child ∈ (ws.component id).childIds) : id ∈ ws.enclosing child := by
  rw [hs.enclosing_eq child, (hs.of_mem_childIds h).2.1]
  exact .tail _ (hs.self_mem_enclosing id)

theorem Swept.mem_enclosing (hs : ws.Sound) (h : ws.Swept root z) : root ∈ ws.enclosing z := by
  induction h with
  | self => exact hs.self_mem_enclosing root
  | child _ _ mem ih => exact hs.mem_enclosing_trans ih (hs.mem_enclosing_child mem)

theorem Swept.of_child (hwritten : (ws.component root).written = true)
    (hchild : child ∈ (ws.component root).childIds) (h : ws.Swept child z) : ws.Swept root z := by
  induction h with
  | self => exact .child .self hwritten hchild
  | child _ written mem ih => exact ih.child written mem

theorem Swept.cases_head (h : ws.Swept root z) : z = root ∨ (ws.component root).written = true ∧
    ∃ child ∈ (ws.component root).childIds, ws.Swept child z := by
  induction h with
  | self => exact .inl rfl
  | child _ written mem ih =>
    rcases ih with rfl | ⟨hroot, c, hc, hswept⟩
    · exact .inr ⟨written, _, mem, .self⟩
    · exact .inr ⟨hroot, c, hc, hswept.child written mem⟩

theorem Swept.of_same (h : ws.Swept root z)
    (hsame : ∀ x, ws.Swept root x → (ws'.component x).written = (ws.component x).written ∧
      (ws'.component x).childIds = (ws.component x).childIds) : ws'.Swept root z := by
  induction h with
  | self => exact .self
  | @child parent z h written mem ih =>
    obtain ⟨hwritten, hchildIds⟩ := hsame parent h
    exact ih.child (hwritten.trans written) (hchildIds ▸ mem)

theorem Swept.of_same' (h : ws'.Swept root z)
    (hsame : ∀ x, ws.Swept root x → (ws'.component x).written = (ws.component x).written ∧
      (ws'.component x).childIds = (ws.component x).childIds) : ws.Swept root z := by
  induction h with
  | self => exact .self
  | child _ written mem ih =>
    obtain ⟨hwritten, hchildIds⟩ := hsame _ ih
    exact ih.child (hwritten ▸ written) (hchildIds ▸ mem)

end Swept

end Workspace

/-- The component without text, as if it had never been written. -/
def Component.wiped (c : Component) : Component := (Edit.file .restart).apply (Edit.cleared.apply c)

/-- Of `ws`, the components among `S` were wiped, and nothing else was changed. -/
structure Wiped (S : ComponentId → Prop) (ws ws' : Workspace) : Prop where
  reach : Reach (fun _ _ => True) ws ws'
  bare : ws'.bare = ws.bare
  forest : ws'.forest = ws.forest
  wiped : ∀ z, S z → ws'.component z = (ws.component z).wiped
  kept : ∀ z, ¬S z → ws'.component z = ws.component z

namespace Wiped

variable {S T : ComponentId → Prop} {ws ws₁ ws₂ : Workspace}

theorem trans (h : Wiped S ws ws₁) (h' : Wiped T ws₁ ws₂) (hapart : ∀ z, S z → ¬T z) :
    Wiped (fun z => S z ∨ T z) ws ws₂ where
  reach := h.reach.trans h'.reach
  bare := h'.bare.trans h.bare
  forest := h'.forest.trans h.forest
  wiped := by
    rintro z (hz | hz)
    · exact (h'.kept z (hapart z hz)).trans (h.wiped z hz)
    · rw [h'.wiped z hz, h.kept z fun hS => hapart z hS hz]
  kept z hz := (h'.kept z fun hT => hz (.inr hT)).trans (h.kept z fun hS => hz (.inl hS))

theorem of_iff (h : Wiped S ws ws₁) (hiff : ∀ z, T z ↔ S z) : Wiped T ws ws₁ where
  reach := h.reach
  bare := h.bare
  forest := h.forest
  wiped z hz := h.wiped z ((hiff z).mp hz)
  kept z hz := h.kept z fun hS => hz ((hiff z).mpr hS)

end Wiped

namespace Build

section Clearing

variable {ws : Workspace} {root : ComponentId}

theorem wiped_self (hroot : root < ws.size) : Wiped (fun z => z = root) ws
    ((Change.edit root (.file .restart)).apply ((Change.edit root .cleared).apply ws)) where
  reach := (Reach.single (.edit root .cleared) trivial trivial).trans
    (.single (.edit root (.file .restart)) trivial trivial)
  bare := by
    have hfirst : ((Change.edit root .cleared).apply ws).bare = ws.bare := ws.bare_modify root fun _ => rfl
    refine (Workspace.bare_modify _ root fun c => ?_).trans hfirst
    simp only [Edit.apply, Component.bare]
    cases c.kind <;> rfl
  forest := rfl
  wiped := by
    rintro _ rfl
    simp only [Change.apply, Workspace.component_modify_eq, Workspace.size_modify, hroot, and_self, if_true]
    rfl
  kept z hz := by
    simp only [Change.apply, Workspace.component_modify_eq, hz, false_and, if_false]

/-- **Clearing a row of components** of which no two have anything in common. -/
theorem wiped_forM (hs : ws.Sound) {depth : Nat} {ids : List ComponentId} {S : ComponentId → Prop}
    {ws₁ : Workspace} (h : Wiped S ws ws₁)
    (hone : ∀ {ws : Workspace} {id : ComponentId}, ws.Sound → id < ws.size → ws.size ≤ id + depth →
      ∃ ws', clearWithin depth id ws = .ok () ws' ∧ Wiped (ws.Swept id) ws ws')
    (hids : ∀ id ∈ ids, id < ws.size ∧ ws.size ≤ id + depth)
    (hapart : ∀ id ∈ ids, ∀ z, S z → ¬ws.Swept id z)
    (hdisjoint : ids.Pairwise fun a b => ∀ z, ws.Swept a z → ¬ws.Swept b z) :
    ∃ ws', ids.forM (clearWithin depth) ws₁ = .ok () ws' ∧
      Wiped (fun z => S z ∨ ∃ id ∈ ids, ws.Swept id z) ws ws' := by
  induction ids generalizing S ws₁ with
  | nil => exact ⟨ws₁, rfl, h.of_iff fun z => by simp⟩
  | cons id ids ih =>
    obtain ⟨hfirst, hdisjoint⟩ := List.pairwise_cons.mp hdisjoint
    have hsize : ws₁.size = ws.size := Workspace.size_of_bare h.bare
    obtain ⟨hlt, hdepth⟩ := hids id (.head _)
    obtain ⟨ws₂, hrun, hwiped⟩ := hone (h.reach.sound hs) (hsize ▸ hlt) (hsize ▸ hdepth)
    -- what is reached from here is as it was
    have hsame : ∀ x, ws.Swept id x → (ws₁.component x).written = (ws.component x).written ∧
        (ws₁.component x).childIds = (ws.component x).childIds := fun x hx => by
      rw [h.kept x fun hS => hapart id (.head _) x hS hx]
      exact ⟨rfl, rfl⟩
    have hboth := h.trans (hwiped.of_iff (T := ws.Swept id) fun z => ⟨fun hz => hz.of_same hsame, fun hz =>
      hz.of_same' hsame⟩) (hapart id (.head _))
    obtain ⟨ws₃, hrest, hall⟩ := ih hboth (fun other hother => hids other (.tail _ hother))
      (fun other hother z hz => hz.elim (hapart other (.tail _ hother) z)
        (hfirst other hother z)) hdisjoint
    refine ⟨ws₃, (bind_of_ok hrun).trans hrest, hall.of_iff fun z => ?_⟩
    simp only [List.mem_cons, exists_eq_or_imp, or_assoc]

/-- **Clearing wipes what it reaches**, by induction on the depth. -/
theorem wiped_of_clearWithin (depth : Nat) (hs : ws.Sound) (hroot : root < ws.size)
    (hdepth : ws.size ≤ root + depth) :
    ∃ ws', clearWithin depth root ws = .ok () ws' ∧ Wiped (ws.Swept root) ws ws' := by
  induction depth generalizing ws root with
  | zero => exact absurd hroot (Nat.not_lt.mpr hdepth)
  | succ depth ih =>
    have hself := wiped_self hroot
    have hstep : clearWithin (depth + 1) root ws =
        (if (ws.component root).written then (ws.component root).childIds.forM (clearWithin depth)
          else pure () : Build Unit)
        ((Change.edit root (.file .restart)).apply ((Change.edit root .cleared).apply ws)) := rfl
    rw [hstep]
    cases hwritten : (ws.component root).written with
    | false =>
      refine ⟨_, rfl, hself.of_iff fun z => ⟨fun hz => ?_, fun hz => hz ▸ .self⟩⟩
      rcases hz.cases_head with hz | ⟨hroot, -⟩
      · exact hz
      · rw [hwritten] at hroot
        cases hroot
    | true =>
      -- what is reached lies below, and nothing lies below two children
      have hbelow : ∀ {child z : ComponentId}, child ∈ (ws.component root).childIds → ws.Swept child z →
          child ∈ ws.enclosing z := fun _ hz => hz.mem_enclosing hs
      have hroom : ∀ child ∈ (ws.component root).childIds, child < ws.size ∧ ws.size ≤ child + depth :=
        fun child hchild => by
          obtain ⟨hlt, -, hafter⟩ := hs.of_mem_childIds hchild
          exact ⟨hlt, by grind⟩
      have hapart : ∀ child ∈ (ws.component root).childIds, ∀ z, z = root → ¬ws.Swept child z := by
        rintro child hchild _ rfl hswept
        have hle := hs.le_of_mem_enclosing (hbelow hchild hswept)
        exact absurd (hs.of_mem_childIds hchild).2.2 (Nat.not_lt.mpr hle)
      have hdisjoint : (ws.component root).childIds.Pairwise fun a b => ∀ z, ws.Swept a z → ¬ws.Swept b z :=
        List.Pairwise.imp_of_mem (fun ha hb hne z hz hz' =>
          hne (hs.eq_of_mem_enclosing ha hb (hbelow ha hz) (hbelow hb hz'))) (hs.nodup root)
      obtain ⟨ws', hrun, hall⟩ := wiped_forM hs hself ih hroom hapart hdisjoint
      refine ⟨ws', hrun, hall.of_iff fun z => ⟨fun hz => hz.cases_head.imp_right And.right, ?_⟩⟩
      rintro (rfl | ⟨child, hchild, hz⟩)
      · exact .self
      · exact hz.of_child hwritten hchild

theorem wiped_of_clear (hs : ws.Sound) (hroot : root < ws.size) :
    ∃ ws', clear root ws = .ok () ws' ∧ Wiped (ws.Swept root) ws ws' :=
  wiped_of_clearWithin (ws.size - root) hs hroot (by grind)

end Clearing

end Build

end LightHeaders
