import LightHeaders.Proofs.Mentions
import LightHeaders.Proofs.OwnLines

set_option autoImplicit false

/-! # The names that a line spells

The line of a component spells what the names on it lead to: what is called or assigned, what stands
for a value, and the types that are not built in (`Workspace.Spells`). Each of them stands on the line
under its C++ name (`Workspace.Spells.occurs`).

A line is printed long after the names in its file were resolved, and from another scope: the type of a
parameter is a name in the parameter, but the head of the function spells it as a name in the function.
Where nothing stands below the parameters of a function it makes no difference, so each name that a
line spells is mentioned in the file and leads to the same target (`Workspace.Spells.exists_mention`).
-/

namespace LightHeaders

open Text

/-! ## Text in a text -/

/-- `s` stands somewhere in `text`. -/
def Occurs (s text : String) : Prop := s.toList <:+: text.toList

namespace Occurs

variable {s text : String}

theorem refl (s : String) : Occurs s s := List.infix_rfl

theorem before (h : Occurs s text) (back : String) : Occurs s (text ++ back) := by
  rw [Occurs, String.toList_append]
  exact h.trans (List.prefix_append _ _).isInfix

theorem behind (h : Occurs s text) (front : String) : Occurs s (front ++ text) := by
  rw [Occurs, String.toList_append]
  exact h.trans (List.suffix_append _ _).isInfix

theorem trans {t : String} (h : Occurs s t) (h' : Occurs t text) : Occurs s text :=
  List.IsInfix.trans h h'

theorem join_of_mem {sep : List Char} {cs : List Char} {l : List (List Char)} (h : cs ∈ l) :
    cs <:+: join sep l := by
  induction l with
  | nil => cases h
  | cons first rest ih =>
    cases rest with
    | nil =>
      rw [List.mem_singleton.mp h]
      exact List.infix_rfl
    | cons next rest =>
      rw [join]
      rcases List.mem_cons.mp h with rfl | h
      · rw [List.append_assoc]
        exact (List.prefix_append _ _).isInfix
      · exact (ih h).trans (List.suffix_append _ _).isInfix

theorem glue_of_mem {sep : String} {texts : List String} (h : s ∈ texts) :
    Occurs s (glue sep texts) := by
  rw [Occurs, glue, String.toList_ofList]
  exact join_of_mem (List.mem_map_of_mem h)

end Occurs

theorem exists_mem_of_mapM {α β : Type} {g : α → Option β} {xs : List α} {ys : List β}
    (h : xs.mapM g = some ys) {x : α} (hx : x ∈ xs) : ∃ y ∈ ys, g x = some y := by
  obtain ⟨y, hy, heq⟩ := List.mem_map.mp (Workspace.map_eq_of_mapM h ▸ List.mem_map_of_mem hx)
  exact ⟨y, hy, heq.symm⟩

namespace Workspace

/-! ## What a line spells -/

section

variable (ws : Workspace)

/-- The types that stand on the line of a component. The head of a function has those of its
parameters. -/
def lineTypes (x : ComponentId) : List String :=
  match ws.kind x with
  | .member m => [m.type]
  | .function s => s.result?.toList ++ s.params.filterMap fun param => (ws.kind param).memberType?
  | _ => []

/-- The positions of the values that stand on the line of a component. -/
def lineValues (x : ComponentId) (source : InstructionId) : List Nat :=
  match ws.kind x with
  | .member m => if m.value?.isSome then [0] else []
  | .operation o =>
    match o.action with
    | .call _ => List.range (ws.forest.get source).children.length
    | .assign _ | .giveBack => [0]
  | _ => []

/-- The line of `x` spells a target. -/
inductive Spells (x : ComponentId) : Target → Prop
  /-- What is called or assigned. -/
  | operand {o : Operation} {source : InstructionId} {name : String} {t : Target}
      (kind : ws.kind x = .operation o) (made : (ws.component x).instruction? = some source)
      (named : o.action.name? = some name)
      (leads : o.target?.or (ws.targetAt? x name) = some t) : Spells x t
  /-- A name that stands for a value. -/
  | value {source : InstructionId} {pos : Nat} {text : String} {t : Target}
      (made : (ws.component x).instruction? = some source) (mem : pos ∈ ws.lineValues x source)
      (there : ws.forest.childName? source pos = some text) (isName : Literal.reading text = .name)
      (leads : ws.targetAt? x text = some t) : Spells x t
  /-- A type that is not built in. -/
  | type {type : String} {t : Target} (mem : type ∈ ws.lineTypes x)
      (declared : (ws.languageAt x).builtin? type = none) (leads : ws.targetAt? x type = some t) :
      Spells x t

end

variable {ws : Workspace} {f x : ComponentId} {t : Target}

/-! ### On the line -/

variable {id scope : ComponentId} {source : InstructionId} {m : Member} {pos : Nat} {o : Operation}
  {name type : String}

variable {s text : String}

theorem typeText_of_leads (hdeclared : (ws.languageAt scope).builtin? type = none)
    (hleads : ws.targetAt? scope type = some t) (h : ws.typeText scope (some type) = some s) :
    s = ws.spelling t := by
  rw [typeText, hdeclared, hleads] at h
  cases t with
  | component id =>
    cases h
    rfl
  | native function => cases h

theorem valueText_of_leads (hthere : ws.forest.childName? source pos = some text)
    (hname : Literal.reading text = .name) (hleads : ws.targetAt? scope text = some t)
    (h : ws.valueText scope source pos = some s) :
    s = ws.spelling t := by
  rw [valueText, hthere] at h
  dsimp only at h
  rw [if_pos hname, hleads] at h
  cases h
  rfl

theorem occurs_operand (hnamed : o.action.name? = some name)
    (hleads : o.target?.or (ws.targetAt? x name) = some t) (h : ws.statementText x source o = some text) :
    Occurs (ws.spelling t) text := by
  rw [statementText] at h
  cases haction : o.action with
  | call callee =>
    rw [haction] at h hnamed
    cases hnamed
    obtain ⟨function, hfunction, h⟩ := Option.bind_eq_some_iff.mp h
    obtain ⟨arguments, -, h⟩ := Option.bind_eq_some_iff.mp h
    cases h
    rw [targetText, hleads] at hfunction
    cases hfunction
    exact (((Occurs.refl _).before _).before _).before _
  | assign member =>
    rw [haction] at h hnamed
    cases hnamed
    obtain ⟨member, hmember, h⟩ := Option.bind_eq_some_iff.mp h
    obtain ⟨value, -, h⟩ := Option.bind_eq_some_iff.mp h
    cases h
    rw [targetText, hleads] at hmember
    cases hmember
    exact (((Occurs.refl _).before _).before _).before _
  | giveBack =>
    rw [haction] at hnamed
    cases hnamed

theorem occurs_value_statement (hk : ws.kind x = .operation o) (hpos : pos ∈ ws.lineValues x source)
    {child : String} (hchild : ws.forest.childName? source pos = some child)
    (h : ws.statementText x source o = some text) :
    ∃ s, ws.valueText x source pos = some s ∧ Occurs s text := by
  simp only [lineValues, hk] at hpos
  rw [statementText] at h
  cases haction : o.action with
  | call callee =>
    rw [haction] at h hpos
    obtain ⟨function, -, h⟩ := Option.bind_eq_some_iff.mp h
    obtain ⟨arguments, harguments, h⟩ := Option.bind_eq_some_iff.mp h
    cases h
    obtain ⟨s, hs, hvalue⟩ := exists_mem_of_mapM harguments hpos
    exact ⟨s, hvalue, ((Occurs.glue_of_mem hs).behind _).before _⟩
  | assign member =>
    rw [haction] at h hpos
    obtain rfl := List.mem_singleton.mp hpos
    obtain ⟨member, -, h⟩ := Option.bind_eq_some_iff.mp h
    obtain ⟨value, hvalue, h⟩ := Option.bind_eq_some_iff.mp h
    cases h
    exact ⟨value, hvalue, ((Occurs.refl _).behind _).before _⟩
  | giveBack =>
    rw [haction] at h hpos
    obtain rfl := List.mem_singleton.mp hpos
    simp only [hchild] at h
    obtain ⟨value, hvalue, rfl⟩ := Option.map_eq_some_iff.mp h
    exact ⟨value, hvalue, ((Occurs.refl _).behind _).before _⟩

theorem occurs_value_member (hk : ws.kind x = .member m) (hmade : (ws.component x).instruction? = some source)
    (hpos : pos ∈ ws.lineValues x source) (h : ws.memberText x m = some text) :
    ∃ s, ws.valueText x source pos = some s ∧ Occurs s text := by
  simp only [lineValues, hk] at hpos
  cases hvalue : m.value? with
  | none =>
    simp only [hvalue, Option.isSome_none, Bool.false_eq_true, if_false] at hpos
    cases hpos
  | some first =>
    simp only [hvalue, Option.isSome_some, if_true] at hpos
    obtain rfl := List.mem_singleton.mp hpos
    obtain ⟨type, -, h⟩ := Option.bind_eq_some_iff.mp h
    simp only [hvalue, hmade] at h
    obtain ⟨value, hvalue, h⟩ := Option.bind_eq_some_iff.mp h
    cases h
    exact ⟨value, hvalue, ((Occurs.refl _).behind _).before _⟩

theorem occurs_type_member (h : ws.memberText x m = some text) :
    ∃ s, ws.typeText x (some m.type) = some s ∧ Occurs s text := by
  obtain ⟨type, htype, h⟩ := Option.bind_eq_some_iff.mp h
  refine ⟨type, htype, ?_⟩
  have hstart : Occurs type (type ++ " " ++ (ws.component x).name) :=
    ((Occurs.refl type).before _).before _
  dsimp only at h
  split at h
  · obtain ⟨value, -, h⟩ := Option.bind_eq_some_iff.mp h
    cases h
    exact ((hstart.before _).before _).before _
  · cases h
    exact hstart.before _

theorem occurs_type_function {s : Signature}
    (htype : type ∈ s.result?.toList ++ s.params.filterMap fun param => (ws.kind param).memberType?)
    {head : String} (h : ws.headText x s = some head) :
    ∃ spelled, ws.typeText x (some type) = some spelled ∧ Occurs spelled head := by
  obtain ⟨result, hresult, h⟩ := Option.bind_eq_some_iff.mp h
  obtain ⟨params, hparams, h⟩ := Option.bind_eq_some_iff.mp h
  cases h
  rcases List.mem_append.mp htype with htype | htype
  · rw [Option.mem_toList] at htype
    rw [htype] at hresult
    exact ⟨result, hresult, ((((((Occurs.refl _).behind _).before _).before _).before _).before _).before _⟩
  · obtain ⟨param, hparam, htype⟩ := List.mem_filterMap.mp htype
    obtain ⟨text, htext, hparam⟩ := exists_mem_of_mapM hparams hparam
    obtain ⟨spelled, hspelled, rfl⟩ := Option.map_eq_some_iff.mp hparam
    rw [htype] at hspelled
    refine ⟨spelled, hspelled, ?_⟩
    exact ((((Occurs.refl _).before _).before _).trans (Occurs.glue_of_mem htext) |>.behind _).before _

/-- **What a line spells stands on it.** -/
theorem Spells.occurs (h : ws.Spells x t) (htext : ws.ownText? x = some text) :
    Occurs (ws.spelling t) text := by
  rw [ownText?] at htext
  cases h with
  | operand kind made named leads =>
    rw [kind, made] at htext
    exact occurs_operand named leads htext
  | value made mem there isName leads =>
    cases hk : ws.kind x with
    | operation o =>
      rw [hk, made] at htext
      obtain ⟨s, hs, hoccurs⟩ := occurs_value_statement hk mem there htext
      rwa [valueText_of_leads there isName leads hs] at hoccurs
    | member m =>
      rw [hk] at htext
      obtain ⟨s, hs, hoccurs⟩ := occurs_value_member hk made mem htext
      rwa [valueText_of_leads there isName leads hs] at hoccurs
    | _ =>
      rw [lineValues, hk] at mem
      cases mem
  | type mem declared leads =>
    rw [lineTypes] at mem
    cases hk : ws.kind x with
    | member m =>
      rw [hk] at htext mem
      obtain rfl := List.mem_singleton.mp mem
      obtain ⟨s, hs, hoccurs⟩ := occurs_type_member htext
      rwa [typeText_of_leads declared leads hs] at hoccurs
    | function signature =>
      rw [hk] at htext mem
      obtain ⟨s, hs, hoccurs⟩ := occurs_type_function mem htext
      rwa [typeText_of_leads declared leads hs] at hoccurs
    | _ =>
      rw [hk] at mem
      cases mem

/-! ### Among the mentions -/

/-- The parameters of each function stand below it, with nothing below them. -/
def KeepsParams (ws : Workspace) : Prop :=
  ∀ function, ∀ param ∈ (ws.kind function).params,
    param ∈ (ws.component function).childIds ∧ (ws.component param).childIds = []

theorem keepsParams_iff (ws : Workspace) :
    ws.KeepsParams ↔ ∀ function < ws.size, ∀ param ∈ (ws.kind function).params,
      param ∈ (ws.component function).childIds ∧ (ws.component param).childIds = [] := by
  refine ⟨fun h function _ => h function, fun h function param hparam => ?_⟩
  refine h function (Nat.lt_of_not_le fun hle => ?_) param hparam
  rw [kind, ws.component_of_size_le hle] at hparam
  cases hparam

instance : DecidablePred KeepsParams := fun ws => decidable_of_iff _ ws.keepsParams_iff.symm

theorem Alike.keepsParams {ws' : Workspace} (h : ws.Alike ws') (hparams : ws.KeepsParams) :
    ws'.KeepsParams := by
  intro function param hparam
  rw [h.of_kind Kind.params Kind.params_still] at hparam
  rw [h.childIds_eq, h.childIds_eq]
  exact hparams function param hparam

/-- The operation has the target of its name, if it has one. -/
def Aimed (ws : Workspace) (x : ComponentId) : Prop :=
  ∀ o, ws.kind x = .operation o → o.target? = none ∨ o.target? = ws.actionTarget? x

theorem Aimed.targetAt?_eq (h : ws.Aimed x) (hk : ws.kind x = .operation o)
    (hname : o.action.name? = some name) :
    o.target?.or (ws.targetAt? x name) = ws.targetAt? x name := by
  have haction : ws.actionTarget? x = ws.targetAt? x name := by
    rw [actionTarget?, action?, hk, Option.bind_some, hname, Option.bind_some]
  rcases h o hk with hnone | htarget
  · rw [hnone, Option.none_or]
  · rw [htarget, haction, Option.or_self]

/-- A name leads from a component with nothing below it where it leads from its parent. -/
theorem Sound.targetAt?_of_childless (hs : ws.Sound) {child : ComponentId}
    (hchild : child ∈ (ws.component id).childIds) (hnone : (ws.component child).childIds = [])
    (name : String) : ws.targetAt? child name = ws.targetAt? id name := by
  have hparent : (ws.component child).parent? = some id := (hs.of_mem_childIds hchild).2.1
  have hnearest : ∀ first, ws.nearest? child first = ws.nearest? id first := by
    intro first
    have hno : (ws.component child).child? first = none := by
      refine Option.eq_none_iff_forall_ne_some.mpr fun c hc => ?_
      have hmem := (hs.child hc).2.2.2
      rw [hnone] at hmem
      cases hmem
    rw [nearest?, hs.enclosing_eq child, hparent, List.findSome?_cons, hno, nearest?]
  simp only [targetAt?, hnearest]

theorem exists_mem_values (h : pos ∈ ws.lineValues x source) :
    ∃ type?, (pos, type?) ∈ ws.values x source := by
  cases hk : ws.kind x with
  | member m =>
    simp only [lineValues, hk] at h
    split at h
    · next hvalue =>
      obtain rfl := List.mem_singleton.mp h
      exact ⟨some m.type, by simp [values, hk, hvalue]⟩
    · cases h
  | operation o =>
    simp only [lineValues, hk] at h
    cases haction : o.action with
    | call callee =>
      simp only [haction] at h
      refine ⟨(ws.argumentTypes x callee)[pos]?, ?_⟩
      simp only [values, hk, haction]
      exact List.mem_map.mpr ⟨pos, h, rfl⟩
    | assign name =>
      simp only [haction] at h
      obtain rfl := List.mem_singleton.mp h
      exact ⟨ws.assignedType? x name, by simp [values, hk, haction]⟩
    | giveBack =>
      simp only [haction] at h
      obtain rfl := List.mem_singleton.mp h
      exact ⟨ws.givenBackType? x, by simp [values, hk, haction]⟩
  | _ =>
    simp only [lineValues, hk] at h
    cases h

theorem use_mem_mentions (hmade : (ws.component x).instruction? = some source)
    (hpos : pos ∈ ws.lineValues x source) (hthere : ws.forest.childName? source pos = some text)
    (hname : Literal.reading text = .name) :
    Mention.use text ∈ ws.mentions x := by
  obtain ⟨type?, hvalue⟩ := exists_mem_values hpos
  have hmention : ws.valueMention? source pos = some (.use text) := by
    rw [valueMention?, hthere, Option.bind_some, if_pos hname]
  refine List.mem_append_right _ ?_
  rw [valueMentions, hmade]
  exact List.mem_flatMap.mpr ⟨_, hvalue, by rw [hmention]; exact List.mem_singleton_self _⟩

theorem type_mem_mentions (hdeclared : (ws.languageAt x).builtin? type = none)
    (h : (ws.kind x).memberType? = some type ∨ (ws.kind x).result? = some type) :
    Mention.type type ∈ ws.mentions x := by
  have hmention : ws.typeMention? x type = some (.type type) := by rw [typeMention?, hdeclared]
  refine List.mem_append_left _ ?_
  cases hk : ws.kind x with
  | member m =>
    rw [hk] at h
    rcases h with h | h
    · cases h
      simp only [ownMentions, hk, hmention]
      exact List.mem_singleton_self _
    · cases h
  | function s =>
    rw [hk] at h
    rcases h with h | h
    · cases h
    · replace h : s.result? = some type := h
      simp only [ownMentions, hk, h, Option.bind_some, hmention]
      exact List.mem_singleton_self _
  | _ =>
    rw [hk] at h
    rcases h with h | h <;> cases h

/-- **What the line of a component spells is mentioned in its file**, and the name leads to the same. -/
theorem Spells.exists_mention (h : ws.Spells x t) (hs : ws.Sound) (hparams : ws.KeepsParams)
    (haimed : ws.Aimed x) (hx : ws.DeclaredIn f x) :
    ∃ p ∈ ws.mentionsIn f, ws.targetAt? p.1 p.2.name = some t := by
  cases h with
  | operand kind made named leads =>
    obtain ⟨m, hm, rfl⟩ := Action.mention?_of_name? named
    rw [haimed.targetAt?_eq kind named] at leads
    refine ⟨(x, m), hs.mem_mentionsIn hx (List.mem_append_left _ ?_), leads⟩
    rw [ownMentions, kind, made]
    simp [hm]
  | value made mem there isName leads =>
    exact ⟨_, hs.mem_mentionsIn hx (use_mem_mentions made mem there isName), leads⟩
  | @type type t mem declared leads =>
    rw [lineTypes] at mem
    cases hk : ws.kind x with
    | member m =>
      rw [hk] at mem
      obtain rfl := List.mem_singleton.mp mem
      have hmember : (ws.kind x).memberType? = some m.type := by rw [hk]; rfl
      exact ⟨_, hs.mem_mentionsIn hx (type_mem_mentions declared (.inl hmember)), leads⟩
    | function s =>
      rw [hk] at mem
      rcases List.mem_append.mp mem with mem | mem
      · have hresult : (ws.kind x).result? = some type := by
          rw [hk]
          exact Option.mem_toList.mp mem
        exact ⟨_, hs.mem_mentionsIn hx (type_mem_mentions declared (.inr hresult)), leads⟩
      · -- the parameter mentions the type itself, and from it the name leads to the same
        obtain ⟨param, hparam, htype⟩ := List.mem_filterMap.mp mem
        obtain ⟨hchild, hnone⟩ := hparams x param (by rw [hk]; exact hparam)
        have hno : ws.isFile param = false := by
          rw [isFile]
          cases hkind : ws.kind param with
          | file file =>
            rw [hkind] at htype
            cases htype
          | _ => rfl
        have hlanguage : ws.languageAt param = ws.languageAt x := by
          rw [languageAt, hs.fileOf?_child hchild hno, languageAt]
        rw [← hlanguage] at declared
        refine ⟨_, hs.mem_mentionsIn (.deeper hx hchild hno)
          (type_mem_mentions declared (.inl htype)), ?_⟩
        exact (hs.targetAt?_of_childless hchild hnone type).trans leads
    | _ =>
      rw [hk] at mem
      cases mem

/-! ### In the file -/

theorem Inline.declaredIn {y : ComponentId} (h : ws.Inline y x) (hy : ws.DeclaredIn f y) :
    ws.DeclaredIn f x := by
  induction h with
  | refl => exact hy
  | step _ child ih =>
    obtain ⟨hmem, hno, -⟩ := of_mem_bodyOf child
    exact .deeper ih hmem hno

theorem Visits.declaredIn {prune : Bool} (h : ws.Visits id prune x)
    (hchild : ∀ child ∈ (ws.component id).childIds, ws.isFile child = false → ws.DeclaredIn f child) :
    ws.DeclaredIn f x := by
  induction h with
  | child mem => exact hchild _ (mem_childIds_of_mem_writtenChildren mem) (isFile_of_mem_writtenChildren mem)
  | deeper mem _ ih =>
    have hin := hchild _ (mem_childIds_of_mem_writtenChildren mem) (isFile_of_mem_writtenChildren mem)
    exact ih fun child hmem hno => .deeper hin hmem hno

theorem Rendered.declaredIn (h : ws.Rendered f x) (hs : ws.Sound) : ws.DeclaredIn f x := by
  rcases h with ⟨y, hy, hinline⟩ | ⟨y, hy, hinline⟩
  · exact hinline.declaredIn ((hs.mem_lifted_iff.mp hy).1.declaredIn fun child hmem hno => .child hmem hno)
  · obtain ⟨hmem, hno, -⟩ := of_mem_bodyOf hy
    exact hinline.declaredIn (.child hmem hno)

end Workspace

end LightHeaders
