import LightHeaders.Proofs.Bare

set_option autoImplicit false

/-! # What spelling consists of

To spell a declaration or a statement is to read the tree and to resolve names, and nothing else. So a
property of programs that these steps have, and that lasts from one step to the next, is one that all
spelling has (`SpellingRules`).
-/

namespace LightHeaders

open Workspace Forest

namespace Build

/-- A property of programs that the steps of spelling have, one after another. What is read of the
workspace can be told from its tree. -/
structure SpellingRules (R : ⦃α : Type⦄ → Build α → Prop) : Prop where
  pure : ∀ {α : Type} (a : α), R (pure a)
  throw : ∀ {α : Type} (e : Failure), R (throw e : Build α)
  bind : ∀ {α β : Type} {m : Build α} {k : α → Build β}, R m → (∀ a, R (k a)) → R (m >>= k)
  read : ∀ {β : Type} {k : Workspace → Build β}, (∀ ws ws', ws'.bare = ws.bare → k ws' = k ws) →
    (∀ ws, R (k ws)) → R (get >>= k)
  targetNamed : ∀ scope name, R (targetNamed scope name)

namespace SpellingRules

variable {R : ⦃α : Type⦄ → Build α → Prop} (hR : SpellingRules R) {α β : Type}
include hR

theorem component {id : ComponentId} {k : Component → Build β} (hk : ∀ ws ws' : Workspace,
    ws'.bare = ws.bare → k (ws'.component id) = k (ws.component id)) (h : ∀ c, R (k c)) :
    R (Build.component id >>= k) :=
  hR.read (k := fun ws => k (ws.component id)) hk fun _ => h _

theorem mapM {m : α → Build β} (h : ∀ a, R (m a)) (l : List α) : R (l.mapM m) := by
  induction l with
  | nil => exact hR.pure _
  | cons a l ih =>
    rw [List.mapM_cons]
    exact hR.bind (h a) fun _ => hR.bind ih fun _ => hR.pure _

theorem languageFor (scope : ComponentId) : R (languageFor scope) := by
  refine hR.read (fun ws ws' hb => by rw [languageAt_of_bare hb]) fun ws => ?_
  refine hR.bind (hR.read (fun ws ws' hb => ?_) fun ws => ?_) fun _ => hR.pure _
  · have hreaders : ws'.bare.readers = ws.bare.readers := by rw [hb]
    rw [show ws'.readers = ws.readers from hreaders]
  · split
    · exact hR.throw _
    · exact hR.pure _

theorem spelling (t : Target) : R (do return (← get).spelling t) :=
  hR.read (fun ws ws' hb => by rw [spelling_of_bare hb]) fun _ => hR.pure _

theorem cppType (scope : ComponentId) (type? : Option String) : R (cppType scope type?) := by
  cases type? with
  | none => exact hR.pure _
  | some type =>
    refine hR.bind (hR.languageFor scope) fun language => ?_
    cases language.builtin? type with
    | some b => exact hR.pure _
    | none =>
      refine hR.bind (hR.bind (hR.targetNamed scope type) fun t => ?_) fun _ => hR.spelling _
      cases t with
      | component id => exact hR.pure _
      | native function => exact hR.throw _

theorem cppValue (scope : ComponentId) (source : InstructionId) (pos : Nat) :
    R (cppValue scope source pos) := by
  refine hR.read (fun ws ws' hb => by rw [childName?_of_bare hb]) fun ws => ?_
  cases ws.forest.childName? source pos with
  | none => exact hR.pure _
  | some text =>
    refine hR.bind (m := discard (Build.languageFor scope)) ?_ fun _ => ?_
    · exact hR.bind (hR.languageFor scope) fun _ => hR.pure _
    · split
      · exact hR.bind (hR.targetNamed scope text) fun t => hR.spelling t
      · exact hR.pure _

theorem cppTarget (scope : ComponentId) (target? : Option Target) (name : String) :
    R (cppTarget scope target? name) := by
  cases target? with
  | some t => exact hR.spelling t
  | none => exact hR.bind (hR.targetNamed scope name) hR.spelling

theorem cppStatement (id : ComponentId) (source : InstructionId) (o : Operation) :
    R (cppStatement id source o) := by
  unfold Build.cppStatement
  cases o.action with
  | call callee =>
    refine hR.bind (hR.cppTarget id o.target? callee) fun function => ?_
    refine hR.read (k := fun ws => (do
      let arguments ← (List.range (ws.forest.get source).children.length).mapM (Build.cppValue id source)
      return function ++ "(" ++ Text.glue ", " arguments ++ ");"))
      (fun ws ws' hb => by rw [(alike_of_bare hb).children_eq])
      fun ws => ?_
    exact hR.bind (hR.mapM (hR.cppValue id source) _) fun _ => hR.pure _
  | assign name =>
    exact hR.bind (hR.cppTarget id o.target? name) fun member =>
      hR.bind (hR.cppValue id source 0) fun _ => hR.pure _
  | giveBack =>
    refine hR.read (fun ws ws' hb => ?_) fun ws => ?_
    · have hsame : (ws'.forest.child? source 0).isSome = (ws.forest.child? source 0).isSome := by
        rw [← Option.isSome_map (f := Instruction.name), ← Forest.childName?,
          childName?_of_bare hb, Forest.childName?, Option.isSome_map]
      cases h : ws.forest.child? source 0 <;> cases h' : ws'.forest.child? source 0 <;>
        rw [h, h'] at hsame <;> first | rfl | cases hsame
    · cases ws.forest.child? source 0 with
      | none => exact hR.pure _
      | some child => exact hR.bind (hR.cppValue id source 0) fun _ => hR.pure _

theorem cppMember (id : ComponentId) (m : Member) : R (cppMember id m) := by
  refine hR.bind (hR.cppType id (some m.type)) fun type => hR.component (fun ws ws' hb => ?_) fun c => ?_
  · rw [name_of_bare hb, instruction?_of_bare hb]
  · split
    · exact hR.bind (hR.cppValue id _ 0) fun _ => hR.pure _
    · exact hR.pure _

theorem cppHead (id : ComponentId) (s : Signature) : R (cppHead id s) := by
  refine hR.bind (hR.cppType id s.result?) fun result => hR.bind (hR.mapM (fun param => ?_) _)
    fun params => hR.component (fun ws ws' hb => ?_) fun _ => hR.pure _
  · refine hR.read (fun ws ws' hb => by rw [memberType?_of_bare hb]) fun ws => ?_
    refine hR.bind (hR.cppType id _) fun type => hR.component (fun ws ws' hb => ?_) fun _ => hR.pure _
    rw [name_of_bare hb]
  · rw [specifiers_of_bare hb, name_of_bare hb]

end SpellingRules

end Build

end LightHeaders
