import LightHeaders.Proofs.Histories

set_option autoImplicit false

/-! # What components are made from

In a sourced history every component but a file is made from an instruction, and no two are made from
one (`Workspace.Made`). Loading uses an instruction only if it was not used before, and nothing else
says what a component was made from.
-/

namespace LightHeaders

open Workspace

/-- Every component but a file was made from an instruction, and no two were made from one. -/
structure Workspace.Made (ws : Workspace) : Prop where
  source : ∀ id < ws.size, ws.isFile id = false → (ws.component id).instruction?.isSome = true
  apart : ws.Apart

/-- A change that makes nothing but files without an instruction, and uses no instruction twice. -/
def Change.Faithful (ws : Workspace) : Change → Prop
  | .root _ kind => kind.isFile = true
  | .below _ _ kind instruction? =>
    (kind.isFile = false → instruction?.isSome = true) ∧ ∀ i, instruction? = some i → ws.Unused i
  | .edit _ (.source i) => ws.Unused i
  | _ => True

section Faithful

variable {ws ws' : Workspace} {c : Change}

/-- Only two changes make components, one each. -/
theorem Change.size_apply (c : Change) (ws : Workspace) : (c.apply ws).size = ws.size ∨
    (∃ name kind, c = .root name kind ∧ (c.apply ws).size = ws.size + 1) ∨
    ∃ parent name kind i?, c = .below parent name kind i? ∧ (c.apply ws).size = ws.size + 1 := by
  cases c with
  | root name kind => exact .inr (.inl ⟨name, kind, rfl, Workspace.size_add ..⟩)
  | below parent name kind i? => exact .inr (.inr ⟨parent, name, kind, i?, rfl, Change.size_below ..⟩)
  | edit id e => exact .inl (Workspace.size_modify ..)
  | _ => exact .inl rfl

theorem Workspace.Apart.apply (h : ws.Apart) (legal : c.Legal ws) (hc : c.Faithful ws) :
    (c.apply ws).Apart := by
  intro a b i ha hb
  -- what a change says a component was made from was not used before
  have hunused : ∀ {id : ComponentId} {j : InstructionId},
      ((id = ws.size ∧ ∃ parent name kind, c = .below parent name kind (some j)) ∨
        c = .edit id (.source j)) → ws.Unused j := by
    rintro id j (⟨-, _, _, _, rfl⟩ | rfl)
    · exact hc.2 j rfl
    · exact hc
  rcases c.instruction?_apply legal a with hsame | ⟨j, hj, hfrom⟩
  · rw [hsame] at ha
    rcases c.instruction?_apply legal b with hsame' | ⟨j', hj', hfrom'⟩
    · rw [hsame'] at hb
      exact h a b i ha hb
    · rw [hj'] at hb
      cases hb
      exact absurd ha (hunused hfrom' a)
  · rw [hj] at ha
    cases ha
    rcases c.instruction?_apply legal b with hsame' | ⟨j', hj', hfrom'⟩
    · rw [hsame'] at hb
      exact absurd hb (hunused hfrom b)
    · rcases hfrom with ⟨hida, _, _, _, rfl⟩ | rfl
      · rcases hfrom' with ⟨hidb, -⟩ | hdef
        · rw [hida, hidb]
        · cases hdef
      · rcases hfrom' with ⟨-, _, _, _, hdef⟩ | hdef
        · cases hdef
        · cases hdef
          rfl

/-- **A faithful change keeps where components come from.** -/
theorem Workspace.Made.apply (h : ws.Made) (legal : c.Legal ws) (hc : c.Faithful ws) :
    (c.apply ws).Made := by
  refine ⟨fun id hid hno => ?_, h.apart.apply legal hc⟩
  by_cases hlt : id < ws.size
  · rw [(c.extends_apply legal).isFile hlt] at hno
    rcases c.instruction?_apply legal id with hsame | ⟨i, hi, -⟩
    · rw [hsame]
      exact h.source id hlt hno
    · rw [hi]
      rfl
  · rw [Workspace.isFile, Workspace.kind] at hno
    -- the component is the one that the change makes
    rcases c.size_apply ws with hsize | ⟨name, kind, rfl, hsize⟩ | ⟨parent, name, kind, i?, rfl, hsize⟩
    · exact absurd (hsize ▸ hid) hlt
    · rw [Change.apply, component_add, if_pos (by grind)] at hno
      exact absurd (hc.symm.trans hno) (by decide)
    · rw [Change.component_below legal.1, if_pos (by grind)] at hno ⊢
      exact hc.1 hno

theorem Loads.faithful {S : InstructionId → Prop} (h : Loads S ws c) : c.Faithful ws := by
  cases h with
  | source mem unused isFile => exact unused
  | declare parent mem unused => exact ⟨fun _ => rfl, by rintro _ ⟨⟩; exact unused⟩
  | _ => exact trivial

variable {F H : Prop} {D : ComponentId → Prop}

theorem Emits.faithful {L : Prop} (h : Emits F L H D ws c) : c.Faithful ws := by
  cases h with
  | settle mem =>
    cases mem with
    | load mem _ => exact mem.faithful
    | _ => exact trivial
  | page isPage _ => cases isPage <;> exact trivial
  | _ => exact trivial

theorem Works.faithful {K : Kind → Prop} (h : Works K F H ws c) (hF : F) : c.Faithful ws := by
  cases h with
  | emit mem => exact mem.faithful
  | plan mem =>
    cases mem with
    | @asked parent? =>
      cases parent? with
      | none => exact rfl
      | some parent => exact ⟨by rintro ⟨⟩, by rintro _ ⟨⟩⟩
    | found => exact ⟨by rintro ⟨⟩, by rintro _ ⟨⟩⟩
    | _ => exact trivial
  | root _ free | below _ _ _ free => exact absurd hF free
  | _ => exact trivial

theorem Reach.made {L : Prop} (h : Reach (Emits F L H D) ws ws') (hs : ws.Sound) (hm : ws.Made) : ws'.Made :=
  h.invariant (I := Workspace.Made) hs hm fun _ _ _ legal hc hm => hm.apply legal hc.faithful

end Faithful

/-- **In a sourced history components are made from instructions.** -/
theorem History.made {A : Workspace → Call → Prop} {ws : Workspace} (h : History A ws)
    (hA : ∀ ws c, A ws c → c.Sourced) : ws.Made := by
  obtain ⟨settings, disk, readers, hcontinues⟩ := h
  have hs := sound_new settings disk readers
  have hreach := hcontinues.reach (F := True) (H := False) (fun ws c hc _ => hA ws c hc)
    (fun _ _ _ => False.elim) hs (primed_new True False settings disk readers)
  refine hreach.invariant (I := Workspace.Made) hs ⟨fun id hid => ?_, fun a b i ha => ?_⟩
    fun _ _ _ legal hc hm => hm.apply legal (hc.faithful trivial)
  · exact absurd hid (Nat.not_lt_zero id)
  · rw [component_new] at ha
    cases ha

end LightHeaders
