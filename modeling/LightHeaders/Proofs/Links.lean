import LightHeaders.Proofs.Histories

set_option autoImplicit false

/-! # The links between components

In every history the links between components are sound, whether its calls succeed or fail midway:
the two records that a component keeps of its children agree, children and parents name each other,
and a parent was made before its children. Names and parents stay as they were made.

So no walk up or down a tree goes on without end (`Sound.wellFounded_up`, `Sound.wellFounded_down`),
and the bounds that the walks of the model carry never cut one off.
-/

namespace LightHeaders

namespace Workspace

variable {ws : Workspace}

theorem Sound.wellFounded_up (hs : ws.Sound) :
    WellFounded fun (parent id : ComponentId) => (ws.component id).parent? = some parent :=
  Subrelation.wf (fun hp => hs.parent_lt hp) Nat.lt_wfRel.wf

/-- No chain of children goes on without end: their numbers grow, and there are only so many. -/
theorem Sound.wellFounded_down (hs : ws.Sound) :
    WellFounded fun (child id : ComponentId) => child ∈ (ws.component id).childIds := by
  refine Subrelation.wf (fun {child id} hchild => ?_)
    (InvImage.wf (fun id : ComponentId => ws.size - id) Nat.lt_wfRel.wf)
  obtain ⟨hlt, -, hafter⟩ := hs.of_mem_childIds hchild
  exact Nat.sub_lt_sub_left (lt_trans hafter hlt) hafter

theorem lt_size_of_parent? {id parent : ComponentId}
    (h : (ws.component id).parent? = some parent) : id < ws.size := by
  refine Nat.lt_of_not_le fun hle => ?_
  rw [component_of_size_le ws hle] at h
  cases h

end Workspace

/-- **The links between components are sound in every history**, and stay so: parents and children
are there, a parent was made before its children, the children in order are those known by name,
each once, and each names its parent and is known by its own name. Names and parents never change.
So walks up and down a tree end, and what is read off them is what the unbounded walks give. -/
theorem History.links_sound {ws ws' : Workspace} (h : History (fun _ _ => True) ws)
    (hlater : Continues (fun _ _ => True) ws ws') :
    (∀ id parent, (ws.component id).parent? = some parent → parent < id ∧ id < ws.size) ∧
    (∀ id child, child ∈ (ws.component id).childIds → child < ws.size) ∧
    (∀ id, (ws.component id).childIds.Nodup) ∧
    (∀ id child, child ∈ (ws.component id).childIds ↔
      ∃ name, (ws.component id).child? name = some child) ∧
    (∀ id child, child ∈ (ws.component id).childIds → (ws.component child).parent? = some id ∧
      (ws.component id).child? (ws.component child).name = some child) ∧
    (∀ id, id < ws.size → id < ws'.size ∧ (ws'.component id).name = (ws.component id).name ∧
      (ws'.component id).parent? = (ws.component id).parent?) ∧
    (WellFounded fun (parent id : ComponentId) => (ws.component id).parent? = some parent) ∧
    (WellFounded fun (child id : ComponentId) => child ∈ (ws.component id).childIds) ∧
    (∀ id, ws.enclosing id = id :: match (ws.component id).parent? with
      | some parent => ws.enclosing parent
      | none => []) ∧
    (∀ id, (ws.component (ws.outermost id)).parent? = none) ∧
    (∀ id, ws.isLive id = ((ws.component id).referenced ||
      (ws.kind id).isContainer && (ws.component id).childIds.any ws.isLive)) ∧
    (∀ id, ws.lifted id = (ws.writtenChildren id true).flatMap fun child =>
      ws.liftedWithin (ws.size - child) child (ws.kind child = .space)
        ++ if (ws.component child).forward?.isSome then [child] else []) := by
  have hany : ∀ (ws : Workspace) (c : Call), True → False → c.Sourced := fun _ _ _ => False.elim
  have hanyway : ∀ (ws : Workspace) (c : Call), True → False → c.Driven ws :=
    fun _ _ _ => False.elim
  obtain ⟨hs, hp⟩ := h.known hany hanyway
  have hext := (hlater.reach hany hanyway hs hp).extension
  refine ⟨?_, ?_, hs.nodup, ?_, ?_, ?_, hs.wellFounded_up, hs.wellFounded_down, hs.enclosing_eq,
    hs.parent?_outermost, hs.isLive_eq, fun id => hs.liftedWithin_eq ?_ true⟩
  · exact fun id parent hparent => ⟨hs.parent_lt hparent, Workspace.lt_size_of_parent? hparent⟩
  · exact fun id child hchild => (hs.of_mem_childIds hchild).1
  · exact fun id child => hs.mem_childIds_iff
  · exact fun id child hchild => ⟨(hs.of_mem_childIds hchild).2.1, hs.listed hchild⟩
  · exact fun id hid => ⟨lt_of_lt_of_le hid hext.size_le, hext.name hid, hext.parent? hid⟩
  · exact Nat.sub_le_iff_le_add'.mp le_rfl

/-- A source that declares a function twice and then fails: the second one is in the place of the
first, and asking for the header later fails as well but moves nothing. -/
theorem History.links_sound_after_failure :
    let source := "function f\nfunction f\nbogus x\n"
    let disk : Disk := ⟨[(["work"], .directory), (["a.light"], .file (.text source))], ⟨"/work"⟩⟩
    let empty := Workspace.new {} disk [.light]
    let read := Call.play [.addFile none "a" ⟨"/a.light"⟩, .load 0] empty
    let later := Call.play [.header 0] read
    History (fun _ _ => True) read ∧ Continues (fun _ _ => True) read later ∧
      (read.component 0).childIds = [2] ∧ (read.component 2).parent? = some 0 ∧
      (read.component 0).child? (read.component 2).name = some 2 ∧
      (later.component 1).parent? = (read.component 1).parent? := by
  intro source disk empty read later
  have hread : History (fun _ _ => True) read := .play (by decide +kernel)
  have hlater : Continues (fun _ _ => True) read later := .play (by decide +kernel)
  obtain ⟨-, -, -, -, hback, hkept, -⟩ := hread.links_sound hlater
  have hchildren : (read.component 0).childIds = [2] := by decide +kernel
  have hchild := hback 0 2 (by rw [hchildren]; exact List.mem_singleton.mpr rfl)
  exact ⟨hread, hlater, hchildren, hchild.1, hchild.2, (hkept 1 (by decide +kernel)).2.2⟩

end LightHeaders
