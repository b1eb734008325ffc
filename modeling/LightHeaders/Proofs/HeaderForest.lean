import LightHeaders.Prototype
import LightHeaders.Proofs.Sketch

set_option autoImplicit false

/-! # The instructions of a header

Reading a header adds a root to the forest and below it one function for each prototype, in order, with
the parameters of the prototype below it (`Header.holdsBelow_read`). What the prototypes are is told by
the text alone (`Header.prototypes`).
-/

namespace LightHeaders

/-- The function instruction that a prototype says, with its parameters. -/
def Prototype.sketch (p : Prototype) : Sketch :=
  .node ⟨"function", p.name, some p.result, []⟩
    (p.params.map fun param => .node ⟨"param", param.1, some param.2, []⟩ [])

theorem Prototype.addTo_eq_plant (p : Prototype) (root : InstructionId) (f : Forest) :
    p.addTo root f = f.plant root p.sketch := by
  have hparams : ∀ (params : List (String × String)) (g : Forest) (function : InstructionId),
      params.foldl (fun g param =>
        (g.addChild function { op := "param", name := param.1, type? := some param.2 }).2) g
      = g.plantAll function (params.map fun param => .node ⟨"param", param.1, some param.2, []⟩ []) := by
    intro params
    induction params with
    | nil =>
      intro g function
      rw [List.map_nil, Forest.plantAll, List.foldl_nil]
    | cons param params ih =>
      intro g function
      rw [List.foldl_cons, ih, List.map_cons, Forest.plantAll, Forest.plant, Forest.plantAll]
      rfl
  rw [sketch, Forest.plant]
  exact hparams p.params _ _

namespace Header

/-- The prototypes of a header, in order. -/
def prototypes (source : String) : List Prototype := (declarations source).filterMap Prototype.parse?

theorem read_eq_plantAll (source : String) (f : Forest) :
    read source f = ((f.add .root).2.plantAll f.size ((prototypes source).map Prototype.sketch), f.size) := by
  have hfold : ∀ (ps : List Prototype) (g : Forest),
      ps.foldl (fun g p => p.addTo f.size g) g = g.plantAll f.size (ps.map Prototype.sketch) := by
    intro ps
    induction ps with
    | nil =>
      intro g
      rw [List.map_nil, Forest.plantAll, List.foldl_nil]
    | cons p ps ih =>
      intro g
      rw [List.foldl_cons, ih, List.map_cons, Forest.plantAll, p.addTo_eq_plant]
  exact Prod.ext (hfold _ _) rfl

/-- **What a header is read into**: below its root stand the functions of its prototypes, and nothing
else. -/
theorem holdsBelow_read (source : String) (f : Forest) :
    (read source f).1.HoldsBelow f.size ((prototypes source).map Prototype.sketch) := by
  have hroot : f.size < (f.add .root).2.size := by
    rw [Forest.size_add]
    exact Nat.lt_succ_self _
  obtain ⟨ids, hplanted, hholds⟩ :=
    Forest.holdsAll_plantAll ((prototypes source).map Prototype.sketch) (f.add .root).2 hroot
  rw [read_eq_plantAll]
  refine ⟨lt_of_lt_of_le hroot hplanted.size_le, ?_⟩
  rw [hplanted.at_parent, Forest.get_add_size]
  exact hholds

end Header

end LightHeaders
