import LightHeaders.Proofs.Pages

set_option autoImplicit false

/-! # Text in C++

What is spelled in C++ stands on one line, if nothing that is spelled has a line feed in it. A statement,
a declaration and the head of a function are **code**: no quote stands at their end, as it does at the end
of the line that includes a file.
-/

namespace LightHeaders

open Text

/-! ## Code -/

/-- The text is one line, and no quote is at its end. -/
def IsCode (s : String) : Prop := OneLine s ∧ s.toList.getLast? ≠ some '"'

instance (s : String) : Decidable (IsCode s) := inferInstanceAs (Decidable (_ ∧ _))

variable {s t : String}

theorem IsCode.append (hs : OneLine s) (ht : IsCode t) (hne : t ≠ "") : IsCode (s ++ t) := by
  refine ⟨hs.append ht.1, ?_⟩
  have hlast : t.toList ≠ [] := fun h => hne (String.toList_inj.mp h)
  rw [String.toList_append, List.getLast?_append_of_ne_nil _ hlast]
  exact ht.2

theorem IsCode.concat (hs : IsCode s) (ht : IsCode t) : IsCode (s ++ t) := by
  by_cases hne : t = ""
  · rwa [hne, String.append_empty]
  · exact IsCode.append hs.1 ht hne

theorem Language.oneLine_cpp {language : Language} {name : String} {b : Builtin} (hn : OneLine name)
    (h : language.builtin? name = some b) : OneLine b.cpp := by
  cases language with
  | light =>
    revert h
    rw [builtin?]
    fun_cases lightBuiltin? name with
    | case8 => rintro ⟨⟩
    | _ =>
      rintro ⟨⟩
      decide
  | cpp =>
    obtain ⟨_, -, rfl⟩ := Option.map_eq_some_iff.mp h
    exact hn

theorem isCode_margin (ws : Workspace) (id : ComponentId) : IsCode (ws.margin id) := by
  have hblank : ∀ c ∈ blanks (4 * ws.depthInFile id), c = ' ' := fun c hc => List.eq_of_mem_replicate hc
  rw [IsCode, OneLine, Workspace.margin, String.toList_ofList]
  constructor
  · intro hmem
    cases hblank _ hmem
  · intro hlast
    cases hblank _ (List.mem_of_getLast? hlast)

theorem Build.oneLine_specifiers (c : Component) : OneLine (Build.specifiers c) := by
  unfold Build.specifiers
  simp only [List.filter_cons, List.filter_nil]
  split <;> split <;> decide

namespace Workspace.Plain

variable {ws : Workspace} (hp : ws.Plain)

include hp

theorem oneLine_qualifiedName {id : ComponentId} (h : OneLine (ws.component id).name) :
    OneLine (ws.qualifiedName id) := by
  refine oneLine_glue (by decide) fun text htext => ?_
  obtain ⟨a, ha, rfl⟩ := List.mem_map.mp htext
  rcases List.mem_cons.mp (List.mem_reverse.mp ha) with rfl | ha
  · exact h
  · -- files are no scopes of C++
    have hscope := List.mem_takeWhile_imp ha
    rw [isQualifier, Bool.and_eq_true, Bool.not_eq_true'] at hscope
    exact hp.name a hscope.2

theorem oneLine_spelling {t : Target} (h : t.OneLine ws) : OneLine (ws.spelling t) := by
  cases t with
  | component id => exact hp.oneLine_qualifiedName h.2
  | native f => exact h

end Workspace.Plain

namespace Build

section Spelling

variable {F L : Prop} {G : ComponentId → Prop} {ws : Workspace}

/-! ## Types, values and targets -/

/-- **The spelling of a type** stands on one line. -/
theorem oneLine_cppType (hr : ws.Ready F L) (scope : ComponentId) {type? : Option String}
    (htype : F → ∀ type, type? = some type → OneLine type) :
    Runs (Settles F L G) (cppType scope type?) ws fun s _ => F → OneLine s := by
  cases type? with
  | none => exact .pure fun _ => by decide
  | some type =>
    refine .of_sound fun hs => ?_
    refine .bind runs_languageFor ?_
    rintro language _ - - ⟨rfl, -⟩
    split
    · next b hb => exact .pure fun h => Language.oneLine_cpp (htype h type rfl) hb
    · refine .bind (runs_componentNamed hr fun h => htype h type rfl)
        fun target ws₁ _ hreach₁ htarget => .get fun _ => .pure fun h => ?_
      exact ((hreach₁.ready hs hr).plain h).oneLine_qualifiedName
        (oneLine_of_mem_pieces (htype h type rfl) htarget.2)

theorem oneLine_cppValue (hr : ws.Ready F L) (scope : ComponentId) (source : InstructionId)
    (pos : Nat) : Runs (Settles F L G) (cppValue scope source pos) ws fun s _ => F → OneLine s := by
  refine .get fun hs => ?_
  split
  · exact .pure fun _ => by decide
  · next text htext =>
    have hone : F → OneLine text := oneLine_childName? hr htext
    refine .bind runs_discard_languageFor ?_
    rintro _ _ - - rfl
    refine .ite (fun _ => ?_) fun _ => .pure hone
    refine .bind (runs_targetNamed hr hone) fun target ws₁ _ hreach₁ htarget => ?_
    exact .get fun _ => .pure fun h =>
      ((hreach₁.ready hs hr).plain h).oneLine_spelling (htarget.oneLine (hone h))

theorem oneLine_cppTarget (hr : ws.Ready F L) (scope : ComponentId) (target? : Option Target) {name : String}
    (hname : F → OneLine name) :
    Runs (Settles F L G) (cppTarget scope target? name) ws fun s _ =>
      F → (∀ t, target? = some t → t.OneLine ws) → OneLine s := by
  refine .of_sound fun hs => ?_
  cases target? with
  | some target =>
    show Runs (Settles F L G) (do return (← get).spelling target) ws _
    refine .get fun _ => .pure fun h hknown => ?_
    exact (hr.plain h).oneLine_spelling (hknown target rfl)
  | none =>
    refine .bind (runs_targetNamed hr hname) fun target ws₁ _ hreach₁ htarget => ?_
    exact .get fun _ => .pure fun h _ =>
      ((hreach₁.ready hs hr).plain h).oneLine_spelling (htarget.oneLine (hname h))

/-! ## Lines of code -/

/-- **A statement is code.** -/
theorem isCode_cppStatement (hr : ws.Ready F L) (id : ComponentId) (source : InstructionId) {o : Operation}
    (ho : F → Kind.OneLine (.operation o)) :
    Runs (Settles F L G) (cppStatement id source o) ws fun s _ =>
      F → (∀ t, o.target? = some t → t.OneLine ws) → IsCode s := by
  unfold cppStatement
  refine .of_sound fun hs => ?_
  cases haction : o.action with
  | call callee =>
    have hcallee : F → OneLine callee := fun h => by
      have hone := ho h
      rw [Kind.OneLine, haction] at hone
      exact hone
    refine .bind (oneLine_cppTarget hr id o.target? hcallee) fun function ws₁ _ hreach₁ hfunction => ?_
    refine .instruction fun _ => .bind (.mapM_all fun pos _ ws₂ _ hreach₂ =>
      oneLine_cppValue ((hreach₁.trans hreach₂).ready hs hr) id source pos)
      fun arguments _ _ _ harguments => .pure fun h hknown => ?_
    have hglue : OneLine (glue ", " arguments) :=
      oneLine_glue (by decide) fun text htext => harguments text htext h
    exact IsCode.append (((hfunction h hknown).append (by decide)).append hglue) (by decide) (by decide)
  | assign name =>
    have hname : F → OneLine name := fun h => by
      have hone := ho h
      rw [Kind.OneLine, haction] at hone
      exact hone
    refine .bind (oneLine_cppTarget hr id o.target? hname) fun member ws₁ _ hreach₁ hmember => ?_
    refine .bind (oneLine_cppValue (hreach₁.ready hs hr) id source 0)
      fun value _ _ _ hvalue => .pure fun h hknown => ?_
    exact IsCode.append (((hmember h hknown).append (by decide)).append (hvalue h)) (by decide) (by decide)
  | giveBack =>
    refine .get fun _ => ?_
    split
    · exact .pure fun _ _ => by decide
    · refine .bind (oneLine_cppValue hr id source 0) fun value _ _ _ hvalue => .pure fun h _ => ?_
      exact IsCode.append (OneLine.append (by decide) (hvalue h)) (by decide) (by decide)

/-- **The declaration of a member is code.** -/
theorem isCode_cppMember (hr : ws.Ready F L) (id : ComponentId) {m : Member} (hm : F → OneLine m.type) :
    Runs (Settles F L G) (cppMember id m) ws fun s _ =>
      F → id < ws.size → OneLine (ws.component id).name → IsCode s := by
  refine .of_sound fun hs => ?_
  refine .bind (oneLine_cppType hr id (by rintro h _ ⟨⟩; exact hm h))
    fun type ws₁ _ hreach₁ htype => ?_
  have hstart : F → id < ws.size → OneLine (ws.component id).name →
      OneLine (type ++ " " ++ (ws₁.component id).name) := by
    intro h hid hname
    rw [hreach₁.extension.name hid]
    exact ((htype h).append (by decide)).append hname
  refine .component fun _ => ?_
  split
  · refine .bind (oneLine_cppValue (hreach₁.ready hs hr) id _ 0)
      fun value _ _ _ hvalue => .pure fun h hid hname => ?_
    exact IsCode.append (((hstart h hid hname).append (by decide)).append (hvalue h)) (by decide) (by decide)
  · exact .pure fun h hid hname => IsCode.append (hstart h hid hname) (by decide) (by decide)

theorem oneLine_cppParam (hr : ws.Ready F L) (function param : ComponentId) :
    Runs (Settles F L G) (cppParam function param) ws fun s _ =>
      F → param < ws.size → OneLine (ws.component param).name → OneLine s := by
  refine .get fun _ => ?_
  refine .bind (oneLine_cppType hr function fun h _ htype =>
    oneLine_memberType? (hr.plain h) htype) fun type ws₁ _ hreach₁ htype => ?_
  refine .component fun _ => .pure fun h hparam hname => ?_
  rw [hreach₁.extension.name hparam]
  exact ((htype h).append (by decide)).append hname

/-- **The head of a function is code.** -/
theorem isCode_cppHead (hr : ws.Ready F L) (id : ComponentId) {s : Signature}
    (hresult : F → ∀ type, s.result? = some type → OneLine type) :
    Runs (Settles F L G) (cppHead id s) ws fun head _ =>
      F → id < ws.size → OneLine (ws.component id).name →
        (∀ param ∈ s.params, param < ws.size ∧ OneLine (ws.component param).name) → IsCode head := by
  refine .of_sound fun hs => ?_
  refine .bind (oneLine_cppType hr id hresult) fun result ws₁ _ hreach₁ htype => ?_
  have hparam : ∀ param ∈ s.params, ∀ ws₂ : Workspace, ws₂.Sound → Reach (Settles F L G) ws₁ ws₂ →
      Runs (Settles F L G) (cppParam id param) ws₂ fun text _ =>
        F → (∀ param ∈ s.params, param < ws.size ∧ OneLine (ws.component param).name) → OneLine text := by
    intro param hmem ws₂ _ hreach₂
    have hreach := hreach₁.trans hreach₂
    refine (oneLine_cppParam (hreach.ready hs hr) id param).weaken fun text _ _ _ htext h hparams => ?_
    obtain ⟨hlt, hname⟩ := hparams param hmem
    exact htext h (hreach.lt hlt) (by rwa [hreach.extension.name hlt])
  refine .bind (.mapM_all hparam) fun params ws₂ _ hreach₂ hparams => ?_
  refine .component fun _ => .pure fun h hid hname hall => ?_
  rw [(hreach₁.trans hreach₂).extension.name hid]
  have hglue : OneLine (glue ", " params) :=
    oneLine_glue (by decide) fun text htext => hparams text htext h hall
  exact IsCode.append ((((((oneLine_specifiers _).append (htype h)).append (by decide)).append
    hname).append (by decide)).append hglue) (by decide) (by decide)

end Spelling

end Build

end LightHeaders
