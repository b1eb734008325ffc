import LightHeaders.Compiler
import Mathlib.Data.List.Infix

set_option autoImplicit false

/-! # The innermost project around a path

Projects are compared by the number of parts of their roots. The roots around one path are all initial
parts of that path, so they form a chain, and the one with the most parts is inside all others
(`projectAround?_innermost`).
-/

namespace LightHeaders.Workspace

variable (ws : Workspace) (p : Path)

/-- The root of a project is around the path: its parts are the first parts of the path. -/
def Around (id : ProjectId) : Prop := (ws.project id).root.parts <+: p.parts

/-- What a search through the first `count` projects comes to: the last of those around the path whose
root has the most parts, if there is any. -/
def Leads (count : Nat) : Option ProjectId → Prop
  | none => ∀ id < count, ¬ws.Around p id
  | some best => best < count ∧ ws.Around p best ∧ ∀ id < count, ws.Around p id →
      (ws.project id).root.parts.length ≤ (ws.project best).root.parts.length ∧
        ((ws.project id).root.parts.length = (ws.project best).root.parts.length → id ≤ best)

variable {ws p} {count : Nat} {best? : Option ProjectId}

/-- **One step of the search**, past a project that is not around the path. -/
theorem Leads.skip (h : ws.Leads p count best?) (hcount : ¬ws.Around p count) :
    ws.Leads p (count + 1) best? := by
  have hbelow : ∀ id < count + 1, ws.Around p id → id < count := by
    intro id hid haround
    refine Nat.lt_of_le_of_ne (Nat.le_of_lt_succ hid) ?_
    rintro rfl
    exact hcount haround
  cases best? with
  | none => exact fun id hid haround => h id (hbelow id hid haround) haround
  | some best =>
    obtain ⟨hlt, hbest, hmost⟩ := h
    exact ⟨Nat.lt_succ_of_lt hlt, hbest, fun id hid haround => hmost id (hbelow id hid haround) haround⟩

/-- **One step of the search**, at a project around the path: it wins unless the best so far has more
parts. -/
theorem Leads.next (h : ws.Leads p count best?) (hcount : ws.Around p count) :
    ws.Leads p (count + 1) (some (ws.innerProject best? count)) := by
  have hself : ∀ id < count + 1, ¬id < count → id = count := fun id hid hlt => by omega
  cases best? with
  | none =>
    refine ⟨Nat.lt_succ_self count, hcount, fun id hid haround => ?_⟩
    obtain rfl := hself id hid fun hlt => h id hlt haround
    exact ⟨le_rfl, fun _ => le_rfl⟩
  | some best =>
    obtain ⟨hlt, hbest, hmost⟩ := h
    rw [innerProject]
    split
    · next hless =>
      refine ⟨Nat.lt_succ_of_lt hlt, hbest, fun id hid haround => ?_⟩
      by_cases hid' : id < count
      · exact hmost id hid' haround
      · obtain rfl := hself id hid hid'
        exact ⟨hless.le, fun heq => absurd heq hless.ne⟩
    · next hmore =>
      refine ⟨Nat.lt_succ_self count, hcount, fun id hid haround => ?_⟩
      by_cases hid' : id < count
      · exact ⟨(hmost id hid' haround).1.trans (not_lt.mp hmore), fun _ => hid'.le⟩
      · obtain rfl := hself id hid hid'
        exact ⟨le_rfl, fun _ => le_rfl⟩

/-- **The search as a whole**, by the number of projects it went through. -/
theorem leads_foldl (ws : Workspace) (p : Path) (count : Nat) :
    ws.Leads p count (((List.range count).filter fun id => p.isBelow (ws.project id).root).foldl
      (fun best? id => some (ws.innerProject best? id)) none) := by
  induction count with
  | zero => exact fun id hid => absurd hid (Nat.not_lt_zero id)
  | succ count ih =>
    rw [List.range_succ, List.filter_append, List.foldl_append, List.filter_singleton]
    cases hbelow : p.isBelow (ws.project count).root with
    | true => exact ih.next (List.isPrefixOf_iff_prefix.mp hbelow)
    | false =>
      refine ih.skip fun haround => ?_
      rw [Path.isBelow, List.isPrefixOf_iff_prefix.mpr haround] at hbelow
      cases hbelow

/-- **The innermost project owns a path.** There is none exactly if no root is around the path; the one
that is found has a root around the path, inside every other root around it, and among projects with
the same root it is the last one registered. -/
theorem projectAround?_innermost (ws : Workspace) (p : Path) :
    (ws.projectAround? p = none ↔
      ∀ id < ws.projects.size, ¬(ws.project id).root.parts <+: p.parts) ∧
    ∀ best, ws.projectAround? p = some best ↔
      best < ws.projects.size ∧ (ws.project best).root.parts <+: p.parts ∧
      (∀ id < ws.projects.size, (ws.project id).root.parts <+: p.parts →
        (ws.project id).root.parts <+: (ws.project best).root.parts) ∧
      ∀ id < ws.projects.size, (ws.project id).root.parts = (ws.project best).root.parts → id ≤ best := by
  have hleads : ws.Leads p ws.projects.size (ws.projectAround? p) := ws.leads_foldl p _
  cases hfound : ws.projectAround? p with
  | none =>
    rw [hfound] at hleads
    refine ⟨iff_of_true rfl hleads, fun best => ⟨by rintro ⟨⟩, ?_⟩⟩
    rintro ⟨hlt, haround, -⟩
    exact absurd haround (hleads best hlt)
  | some found =>
    rw [hfound] at hleads
    obtain ⟨hlt, haround, hmost⟩ := hleads
    -- the roots around one path form a chain
    have hinside : ∀ id < ws.projects.size, (ws.project id).root.parts <+: p.parts →
        (ws.project id).root.parts <+: (ws.project found).root.parts := fun id hid hpre =>
      List.prefix_of_prefix_length_le hpre haround (hmost id hid hpre).1
    have hlast : ∀ id < ws.projects.size, (ws.project id).root.parts = (ws.project found).root.parts →
        id ≤ found := by
      intro id hid heq
      have hpre : ws.Around p id := by
        rw [Around, heq]
        exact haround
      exact (hmost id hid hpre).2 (congrArg List.length heq)
    refine ⟨iff_of_false (by rintro ⟨⟩) fun h => h found hlt haround, fun best => ⟨?_, ?_⟩⟩
    · rintro ⟨⟩
      exact ⟨hlt, haround, hinside, hlast⟩
    · rintro ⟨hlt', haround', hinside', hlast'⟩
      have heq : (ws.project best).root.parts = (ws.project found).root.parts :=
        (hinside best hlt' haround').eq_of_length_le (hinside' found hlt haround).length_le
      exact congrArg some (le_antisymm (hlast' found hlt heq.symm) (hlast best hlt' heq))

/-- Of two projects with one root the later one owns what is below, and a project inside owns its own. -/
example :
    let project (root : String) : Project := ⟨"p", ⟨root⟩, ⟨"/o"⟩, .plain, 0⟩
    let ws : Workspace := { projects := #[project "/a", project "/a/b", project "//a/./b/", project "/c"] }
    ws.projectAround? ⟨"/a/b/x.light"⟩ = some 2 ∧ ws.projectAround? ⟨"/a/bx"⟩ = some 0 ∧
      ws.projectAround? ⟨"/"⟩ = none := by
  decide +kernel

end LightHeaders.Workspace
