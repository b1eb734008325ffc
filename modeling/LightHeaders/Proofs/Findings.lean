import LightHeaders.Proofs.Includes
import LightHeaders.Proofs.Mentions

set_option autoImplicit false

/-! # What settling a file finds

With all files loaded, settling a file resolves just the names that are mentioned in it, in the order of
the walk, and what it changes can be told beforehand (`Workspace.Noted`): which components come to be
referenced, which files become dependencies, which targets and libraries are noted. Beyond that only
literals that are checked against a type are written anew.

Each step of settling adds what it finds to what was found before it (`Findings`); the steps are put
together along the walk by induction on its levels (`Build.finds_settleWithin`), so what is found in a
file is what is found along the walk over it (`Build.noted_of_settle`).
-/

namespace LightHeaders

open Text Workspace Change

/-! ## Adding what is new -/

/-- `l` with those of `xs` behind it that are new, in order. -/
def addNew {α : Type} [BEq α] (l xs : List α) : List α :=
  xs.foldl (fun l x => if l.contains x then l else l ++ [x]) l

theorem addNew_append {α : Type} [BEq α] (l xs ys : List α) :
    addNew l (xs ++ ys) = addNew (addNew l xs) ys :=
  List.foldl_append

theorem addNew_nil_left {α : Type} [BEq α] [LawfulBEq α] (xs : List α) :
    addNew [] xs = xs.eraseDups := by
  induction xs using List.reverseRecOn with
  | nil => rfl
  | append_singleton xs x ih =>
    rw [addNew_append, ih, Build.eraseDups_concat]
    rfl

/-! ## Findings -/

/-- What settling has found so far. -/
@[ext] structure Findings where
  /-- The names that were resolved, with where they stand. -/
  mentions : List (ComponentId × Mention) := []
  /-- The components that came to be referenced. -/
  marked : List ComponentId := []
  /-- The other files that names led to. -/
  files : List ComponentId := []
  /-- The libraries of native functions. -/
  libraries : List String := []
  /-- The operations whose targets are noted. -/
  resolved : List ComponentId := []
  /-- The values that were checked against a type. -/
  checked : List InstructionId := []

namespace Findings

instance : Append Findings where
  append a b :=
    { mentions := a.mentions ++ b.mentions
      marked := a.marked ++ b.marked
      files := a.files ++ b.files
      libraries := a.libraries ++ b.libraries
      resolved := a.resolved ++ b.resolved
      checked := a.checked ++ b.checked }

section Append

variable (a b : Findings)

@[simp] theorem mentions_append : (a ++ b).mentions = a.mentions ++ b.mentions := rfl

@[simp] theorem marked_append : (a ++ b).marked = a.marked ++ b.marked := rfl

@[simp] theorem files_append : (a ++ b).files = a.files ++ b.files := rfl

@[simp] theorem libraries_append : (a ++ b).libraries = a.libraries ++ b.libraries := rfl

@[simp] theorem resolved_append : (a ++ b).resolved = a.resolved ++ b.resolved := rfl

@[simp] theorem checked_append : (a ++ b).checked = a.checked ++ b.checked := rfl

@[simp] theorem append_empty : a ++ ({} : Findings) = a := by
  ext1 <;> simp

@[simp] theorem empty_append : ({} : Findings) ++ a = a := by
  ext1 <;> simp

theorem append_assoc (c : Findings) : a ++ b ++ c = a ++ (b ++ c) := by
  ext1 <;> simp

end Append

/-- What is found along a list. -/
def all {α : Type} (l : List α) (g : α → Findings) : Findings where
  mentions := l.flatMap fun a => (g a).mentions
  marked := l.flatMap fun a => (g a).marked
  files := l.flatMap fun a => (g a).files
  libraries := l.flatMap fun a => (g a).libraries
  resolved := l.flatMap fun a => (g a).resolved
  checked := l.flatMap fun a => (g a).checked

@[simp] theorem all_nil {α : Type} (g : α → Findings) : all [] g = {} := rfl

@[simp] theorem all_cons {α : Type} (a : α) (l : List α) (g : α → Findings) :
    all (a :: l) g = g a ++ all l g := by
  ext1 <;> simp [all]

theorem all_append {α : Type} (l l' : List α) (g : α → Findings) :
    all (l ++ l') g = all l g ++ all l' g := by
  ext1 <;> simp [all]

theorem all_map {α β : Type} (l : List α) (h : α → β) (g : β → Findings) :
    all (l.map h) g = all l fun a => g (h a) := by
  ext1 <;> simp [all, List.flatMap_map]

theorem all_flatMap {α β : Type} (l : List α) (w : α → List β) (g : β → Findings) :
    all (l.flatMap w) g = all l fun a => all (w a) g := by
  ext1 <;> simp [all, List.flatMap_assoc]

end Findings

namespace Workspace

section

variable (ws : Workspace) (f : ComponentId)

/-- What a mention in a component of the file `f` leads to. -/
def leadsTo (scope : ComponentId) (m : Mention) : Findings :=
  match ws.targetAt? scope m.name with
  | some (.component id) =>
    { mentions := [(scope, m)]
      marked := if m.marks then [id] else []
      files := ((ws.fileOf? id).filter (· ≠ f)).toList }
  | some (.native function) => { mentions := [(scope, m)], libraries := [function.library] }
  | none => { mentions := [(scope, m)] }

/-- What is found in the value at a position. -/
def valueFindings (scope : ComponentId) (source : InstructionId) (v : Nat × Option String) : Findings :=
  Findings.all (ws.valueMention? source v.1).toList (ws.leadsTo f scope)
    ++ { checked := (v.2.bind fun _ => ws.forest.childId? source v.1).toList }

/-- What is found in a component itself. -/
def findings (id : ComponentId) : Findings :=
  Findings.all (ws.mentions id) (ws.leadsTo f id)
    ++ { resolved :=
          if (ws.action? id).isSome && (ws.component id).instruction?.isSome then [id] else []
         checked := ws.checks id }

/-- Mentions lead to no checks and to no targets of operations. -/
theorem leadsTo_rest (scope : ComponentId) (m : Mention) :
    (ws.leadsTo f scope m).checked = [] ∧ (ws.leadsTo f scope m).resolved = [] := by
  rw [leadsTo]
  split <;> exact ⟨rfl, rfl⟩

/-- What is found in some values, the names and the checks apart. -/
theorem all_valueFindings (scope : ComponentId) (source : InstructionId) (l : List (Nat × Option String)) :
    Findings.all l (ws.valueFindings f scope source) =
      Findings.all (l.flatMap fun v => (ws.valueMention? source v.1).toList) (ws.leadsTo f scope) ++
        { checked := l.flatMap fun v => (v.2.bind fun _ => ws.forest.childId? source v.1).toList } := by
  have hrest := ws.leadsTo_rest f scope
  have hnil : ∀ ms : List Mention, ms.flatMap (fun _ => ([] : List InstructionId)) = [] := by simp
  rw [Findings.all_flatMap]
  ext1 <;> simp [Findings.all, valueFindings, hrest, hnil]

/-- **What is found in a component**: its own names, its values, and the target of an operation. -/
theorem findings_eq (id : ComponentId) :
    ws.findings f id = Findings.all (ws.ownMentions id) (ws.leadsTo f id) ++
      ((match (ws.component id).instruction? with
        | none => {}
        | some source => Findings.all (ws.values id source) (ws.valueFindings f id source)) ++
      { resolved :=
          if (ws.action? id).isSome && (ws.component id).instruction?.isSome then [id] else [] }) := by
  rw [findings, mentions, Findings.all_append, valueMentions, checks]
  cases (ws.component id).instruction? with
  | none => ext1 <;> simp
  | some source =>
    dsimp only
    rw [all_valueFindings]
    ext1 <;> simp

/-- What a component is once the given has been found in the file `f`. -/
def noted (n : Findings) (id : ComponentId) : Component :=
  { ws.component id with
    referenced := (ws.component id).referenced || n.marked.contains id
    kind :=
      match ws.kind id with
      | .file s =>
        if id = f then .file { s with
          settled := true
          dependencies := addNew s.dependencies n.files
          libraries := addNew s.libraries n.libraries }
        else .file s
      | .operation o => if n.resolved.contains id then .operation { o with target? := ws.actionTarget? id }
        else .operation o
      | k => k }

end

/-- `ws'` is `ws` with what has been found in the file `f`, and with some of the literals that were
checked written anew. -/
structure Noted (ws : Workspace) (f : ComponentId) (n : Findings) (ws' : Workspace) : Prop where
  size_eq : ws'.size = ws.size
  component : ∀ id < ws.size, ws'.component id = ws.noted f n id
  forest_size : ws'.forest.size = ws.forest.size
  instruction : ∀ i, ws'.forest.get i = ws.forest.get i ∨ i ∈ n.checked ∧
    ∃ text, ws'.forest.get i = { ws.forest.get i with name := text } ∧
      (Literal.reading (ws.forest.get i).name).isValue = true ∧ (Literal.reading text).isValue = true
  rest : ws' = { ws with components := ws'.components, forest := ws'.forest }
  leads : ∀ p ∈ n.mentions, p.2.Leads ws p.1

theorem still_noted (ws : Workspace) (f : ComponentId) (n : Findings) (id : ComponentId) :
    (ws.noted f n id).still = (ws.component id).still := by
  have hkind : (ws.noted f n id).kind.still = (ws.component id).kind.still := by
    rw [noted, kind]
    cases (ws.component id).kind with
    | file | operation =>
      dsimp only
      split <;> rfl
    | _ => rfl
  rw [Component.still, hkind]
  rfl

namespace Noted

variable {ws ws' : Workspace} {f : ComponentId} {n : Findings}

/-- What settling finds does not change what names lead to. -/
theorem alike (h : ws.Noted f n ws') : ws.Alike ws' := by
  refine ⟨h.size_eq, fun id => ?_, fun i => ?_⟩
  · by_cases hid : id < ws.size
    · rw [h.component id hid, still_noted]
    · have hle := Nat.le_of_not_lt hid
      rw [ws'.component_of_size_le (h.size_eq ▸ hle), ws.component_of_size_le hle]
  · rcases h.instruction i with heq | ⟨-, text, heq, hold, hnew⟩
    · rw [heq]
    · rw [heq]
      simp [Instruction.still, hold, hnew]

variable {more : Findings} {id : ComponentId}

theorem edit (h : ws.Noted f n ws') {e : Edit} (hlt : id < ws.size)
    (hid : ws.noted f (n ++ more) id = e.apply (ws.noted f n id))
    (hother : ∀ other, other ≠ id → ws.noted f (n ++ more) other = ws.noted f n other)
    (hmentions : more.mentions = []) (hchecked : more.checked = []) :
    ws.Noted f (n ++ more) ((edit id e).apply ws') where
  size_eq := by rw [apply, size_modify, h.size_eq]
  component other hother' := by
    rw [apply, component_modify_eq, h.component other hother', h.size_eq]
    by_cases heq : other = id
    · rw [if_pos ⟨heq, hlt⟩, heq, hid]
    · rw [if_neg fun hand => heq hand.1, hother other heq]
  forest_size := h.forest_size
  instruction i := by
    rw [Findings.checked_append, hchecked, List.append_nil]
    exact h.instruction i
  rest := by
    have hrest := h.rest
    rw [apply, modify]
    conv_lhs => rw [hrest]
  leads p hp := by
    rw [Findings.mentions_append, hmentions, List.append_nil] at hp
    exact h.leads p hp

theorem mark (h : ws.Noted f n ws') {target : ComponentId} (hlt : target < ws.size) :
    ws.Noted f (n ++ { marked := [target] }) ((Change.edit target .referenced).apply ws') := by
  refine h.edit hlt ?_ (fun other hne => ?_) rfl rfl
  · simp [noted, Edit.apply]
  · simp [noted, hne]

theorem edit_file (h : ws.Noted f n ws') (hf : ws.isFile f = true) {more : Findings} {e : FileEdit}
    (he : ∀ s : SourceFile, e.apply s = { s with
      dependencies := addNew s.dependencies more.files
      libraries := addNew s.libraries more.libraries })
    (hmore : more = { files := more.files, libraries := more.libraries }) :
    ws.Noted f (n ++ more) ((Change.edit f (.file e)).apply ws') := by
  have hmarked : more.marked = [] := by rw [hmore]
  have hresolved : more.resolved = [] := by rw [hmore]
  refine h.edit (lt_size_of_isFile hf) ?_ (fun other hne => ?_) (by rw [hmore]) (by rw [hmore])
  · rw [isFile, kind] at hf
    cases hk : (ws.component f).kind with
    | file s => simp [noted, kind, hk, Edit.apply, Kind.mapFile, he, addNew_append, hmarked]
    | _ =>
      rw [hk] at hf
      cases hf
  · simp [noted, hne, hmarked, hresolved]

theorem file (h : ws.Noted f n ws') (hf : ws.isFile f = true) (there : ComponentId) :
    ws.Noted f (n ++ { files := [there] }) ((Change.edit f (.file (.dependency there))).apply ws') := by
  refine h.edit_file hf (fun s => ?_) rfl
  simp only [FileEdit.apply, addNew, List.foldl_cons, List.foldl_nil]
  split <;> rfl

theorem library (h : ws.Noted f n ws') (hf : ws.isFile f = true) (name : String) :
    ws.Noted f (n ++ { libraries := [name] }) ((Change.edit f (.file (.library name))).apply ws') := by
  refine h.edit_file hf (fun s => ?_) rfl
  simp only [FileEdit.apply, addNew, List.foldl_cons, List.foldl_nil]
  split <;> rfl

theorem resolve (h : ws.Noted f n ws') (hlt : id < ws.size) :
    ws.Noted f (n ++ { resolved := [id] })
      ((Change.edit id (.resolved (ws.actionTarget? id))).apply ws') := by
  refine h.edit hlt ?_ (fun other hne => ?_) rfl rfl
  · cases hk : (ws.component id).kind with
    | operation o =>
      have hold : (ws.noted f n id).kind = .operation { o with
          target? := if n.resolved.contains id then ws.actionTarget? id else o.target? } := by
        simp only [noted, kind, hk]
        split <;> rfl
      rw [Edit.apply, hold]
      simp [noted, kind, hk]
    | file s =>
      simp only [noted, kind, hk, Edit.apply]
      split <;> simp
    | _ => simp [noted, kind, hk, Edit.apply]
  · simp [noted, hne]

theorem lead (h : ws.Noted f n ws') {scope : ComponentId} {m : Mention} (hm : m.Leads ws scope) :
    ws.Noted f (n ++ { mentions := [(scope, m)] }) ws' where
  size_eq := h.size_eq
  component id hid := by
    rw [h.component id hid]
    simp [noted]
  forest_size := h.forest_size
  instruction i := by simpa using h.instruction i
  rest := h.rest
  leads p hp := by
    rcases List.mem_append.mp hp with hp | hp
    · exact h.leads p hp
    · rw [List.mem_singleton.mp hp]
      exact hm

theorem check (h : ws.Noted f n ws') (ids : List InstructionId) :
    ws.Noted f (n ++ { checked := ids }) ws' where
  size_eq := h.size_eq
  component id hid := by
    rw [h.component id hid]
    simp [noted]
  forest_size := h.forest_size
  instruction i := (h.instruction i).imp id fun h => ⟨List.mem_append_left _ h.1, h.2⟩
  rest := h.rest
  leads p hp := h.leads p (by simpa using hp)

/-- A literal that is checked can be written anew. -/
theorem recast (h : ws.Noted f n ws') {i : InstructionId} {text : String}
    (hold : (Literal.reading (ws'.forest.get i).name).isValue = true)
    (hnew : (Literal.reading text).isValue = true) :
    ws.Noted f (n ++ { checked := [i] }) ((rename i text).apply ws') where
  size_eq := h.size_eq
  component := (h.check [i]).component
  forest_size := by rw [← h.forest_size]; exact Forest.size_modify ..
  instruction j := by
    have hsame := (h.check [i]).instruction j
    rw [apply, Forest.setName, Forest.get_modify_eq]
    split
    · next hj =>
      obtain ⟨rfl, -⟩ := hj
      refine .inr ⟨by simp, text, ?_, ?_, hnew⟩
      · rcases h.instruction j with heq | ⟨-, _, heq, -⟩ <;> rw [heq]
      · rcases h.instruction j with heq | ⟨-, _, -, hold, -⟩
        · rwa [heq] at hold
        · exact hold
    · exact hsame
  rest := by
    have hrest := h.rest
    rw [apply]
    conv_lhs => rw [hrest]
  leads := (h.check [i]).leads

end Noted

end Workspace

/-! ## Work that finds something -/

namespace Build

/-- Work in the file `f`, wherever settling has come to, finds `more`, and a result meets `Q`. -/
def Finds (ws : Workspace) (f : ComponentId) {α : Type} (m : Build α) (more : Findings)
    (Q : α → Prop) : Prop :=
  ∀ n ws₁, ws.Noted f n ws₁ →
    Runs (fun _ _ => True) m ws₁ fun a ws₂ => ws.Noted f (n ++ more) ws₂ ∧ Q a

section Finds

variable {α β : Type} {ws : Workspace} {f : ComponentId} {more : Findings}

namespace Finds

protected theorem pure {Q : α → Prop} {a : α} (h : Q a) : Finds ws f (pure a) {} Q := fun n _ hn =>
  Runs.pure ⟨by rwa [Findings.append_empty], h⟩

protected theorem bind {m : Build α} {k : α → Build β} {rest : Findings} {R : α → Prop} {Q : β → Prop}
    (hm : Finds ws f m more R) (hk : ∀ a, R a → Finds ws f (k a) rest Q) :
    Finds ws f (m >>= k) (more ++ rest) Q := by
  intro n ws₁ hn
  refine .bind (hm n ws₁ hn) ?_
  rintro a ws₂ _ _ ⟨hn₂, ha⟩
  rw [← Findings.append_assoc]
  exact hk a ha _ ws₂ hn₂

/-- Work that finds nothing can come first. -/
theorem skip {m : Build α} {k : α → Build β} {R : α → Prop} {Q : β → Prop} (hm : Finds ws f m {} R)
    (hk : ∀ a, R a → Finds ws f (k a) more Q) :
    Finds ws f (m >>= k) more Q := by
  rw [← Findings.empty_append more]
  exact hm.bind hk

/-- Looking at the workspace finds nothing; it is alike to the one that settling started from. -/
theorem look {k : Workspace → Build β} {Q : β → Prop} (h : ∀ ws₁, ws.Alike ws₁ → Finds ws f (k ws₁) more Q) :
    Finds ws f (MonadState.get >>= k) more Q := fun n ws₁ hn =>
  Runs.get fun _ => h ws₁ hn.alike n ws₁ hn

theorem component {k : Component → Build β} {Q : β → Prop} {id : ComponentId}
    (h : ∀ ws₁, ws.Alike ws₁ → Finds ws f (k (ws₁.component id)) more Q) :
    Finds ws f (Build.component id >>= k) more Q := fun n ws₁ hn =>
  Runs.component fun _ => h ws₁ hn.alike n ws₁ hn

theorem instruction {k : Instruction → Build β} {Q : β → Prop} {i : InstructionId}
    (h : ∀ ws₁, ws.Alike ws₁ → Finds ws f (k (ws₁.forest.get i)) more Q) :
    Finds ws f (Build.instruction i >>= k) more Q := fun n ws₁ hn =>
  Runs.instruction fun _ => h ws₁ hn.alike n ws₁ hn

protected theorem forM {l : List α} {g : α → Build Unit} {found : α → Findings}
    (h : ∀ a ∈ l, Finds ws f (g a) (found a) fun _ => True) :
    Finds ws f (l.forM g) (Findings.all l found) fun _ => True := by
  induction l with
  | nil => exact Finds.pure trivial
  | cons a l ih =>
    rw [Findings.all_cons]
    exact Finds.bind (h a (.head _)) fun _ _ => ih fun b hb => h b (.tail _ hb)

theorem mentioning {m : Build α} {Q : α → Prop} (h : Finds ws f m more Q) {scope : ComponentId}
    {mention : Mention} (hm : mention.Leads ws scope) :
    Finds ws f m ({ mentions := [(scope, mention)] } ++ more) Q := by
  intro n ws₁ hn
  rw [← Findings.append_assoc]
  exact h _ ws₁ (hn.lead hm)

end Finds

/-! ### Resolving -/

section Resolving

variable (hs : ws.Sound) (hl : ws.Loaded) (hf : ws.isFile f = true) {scope : ComponentId}
  (hscope : ws.fileOf? scope = some f)

theorem finds_languageFor :
    Finds ws f (languageFor scope) {} fun language => language = ws.languageAt scope := by
  intro n ws₁ hn
  refine runs_languageFor.weaken ?_
  rintro language _ - - ⟨rfl, rfl⟩
  exact ⟨by rwa [Findings.append_empty], hn.alike.languageAt_eq scope⟩

include hl in
theorem finds_componentNamed (name : String) :
    Finds ws f (componentNamed scope name) {} fun id =>
      ws.targetAt? scope name = some (.component id) := by
  intro n ws₁ hn
  refine (runs_componentNamed_of_loaded (hn.alike.loaded hl) scope fun _ _ _ => trivial).weaken ?_
  rintro id _ - - ⟨ht, rfl⟩
  exact ⟨by rwa [Findings.append_empty], by rwa [← hn.alike.targetAt?_eq]⟩

variable {target : ComponentId} {m : Mention}

theorem finds_markReferenced (hlt : target < ws.size) :
    Finds ws f (markReferenced target) { marked := [target] } fun _ => True := fun _ _ hn =>
  Runs.change (.edit target .referenced) rfl trivial trivial ⟨hn.mark hlt, trivial⟩

include hf hscope in
theorem finds_noteDependency (target : ComponentId) :
    Finds ws f (noteDependency scope target)
      { files := ((ws.fileOf? target).filter (· ≠ f)).toList } fun _ => True := by
  refine Finds.look fun ws₁ halike => ?_
  rw [halike.fileOf?_eq, halike.fileOf?_eq, hscope]
  cases ws.fileOf? target with
  | none => exact Finds.pure trivial
  | some there =>
    dsimp only
    by_cases hne : f = there
    · subst hne
      rw [if_pos rfl, Option.filter_some, if_neg (by simp)]
      exact Finds.pure trivial
    · rw [if_neg hne, Option.filter_some, if_pos (by simpa using Ne.symm hne)]
      exact fun _ _ hn => .change (.edit f (.file (.dependency there))) rfl trivial trivial
        ⟨hn.file hf there, trivial⟩

theorem leadsTo_component (ht : ws.targetAt? scope m.name = some (.component target)) :
    ws.leadsTo f scope m = { mentions := [(scope, m)] } ++
      (({ marked := if m.marks then [target] else [] } : Findings) ++
        { files := ((ws.fileOf? target).filter (· ≠ f)).toList }) := by
  rw [leadsTo, ht]
  ext1 <;> simp

include hs hf hscope in
theorem finds_refer {k : Build β} {Q : β → Prop} (ht : ws.targetAt? scope m.name = some (.component target))
    (hm : m.marks = true) (hk : Finds ws f k more Q) :
    Finds ws f (do
      markReferenced target
      noteDependency scope target
      k) (ws.leadsTo f scope m ++ more) Q := by
  have hlt : target < ws.size := (hs.targetAt?_fits ht).1
  have hleads : m.Leads ws scope := by
    cases m with
    | type | use => exact ⟨target, ht⟩
    | callee name => exact ⟨_, ht⟩
  rw [leadsTo_component ht, if_pos hm, Findings.append_assoc, Findings.append_assoc]
  refine Finds.mentioning (Finds.bind (finds_markReferenced hlt) fun _ _ => ?_) hleads
  exact Finds.bind (finds_noteDependency hf hscope target) fun _ _ => hk

/-! ### Values -/

theorem runs_meaning_of_loaded (hl : ws.Loaded) (language : Language) (scope : ComponentId) (name : String) :
    Runs (fun _ _ => True) (meaning language scope name) ws fun _ ws' => ws' = ws := by
  unfold meaning
  split
  · exact .pure rfl
  · refine .bind (runs_componentNamed_of_loaded hl scope fun _ _ _ => trivial) ?_
    rintro _ _ - - ⟨-, rfl⟩
    exact .pure rfl

/-- Checking a value changes nothing, and only a literal is to be written anew, as a literal. -/
theorem runs_fit_of_loaded (hl : ws.Loaded) (scope : ComponentId) (subject request : String) :
    Runs (fun _ _ => True) (fit scope subject request) ws fun r ws' => ws' = ws ∧
      ∀ new, r = .replace new →
        (Literal.reading subject).isValue = true ∧ (Literal.reading new).isValue = true := by
  refine .bind runs_languageFor ?_
  rintro language _ - - ⟨rfl, -⟩
  split
  · exact .throw _
  · refine .bind (runs_componentNamed_of_loaded hl scope fun _ _ _ => trivial) ?_
    rintro target _ - - ⟨-, rfl⟩
    refine .bind (runs_declaredType? target) ?_
    rintro type? _ - - ⟨rfl, -⟩
    cases type? with
    | none => exact .throw _
    | some declared =>
      refine .bind (runs_meaning_of_loaded hl language target declared) ?_
      rintro found _ - - rfl
      refine .bind (runs_meaning_of_loaded hl language scope request) ?_
      rintro expected _ - - rfl
      split
      · exact .pure ⟨rfl, by rintro _ ⟨⟩⟩
      · exact .throw _
  · next kind hkind =>
    refine (runs_fitLiteral (F := False) language kind request False.elim).weaken ?_
    rintro r _ - - ⟨rfl, hnew⟩
    refine ⟨rfl, fun new hr => ?_⟩
    obtain ⟨-, required, rfl⟩ := hnew new hr
    exact ⟨by rw [hkind]; rfl, Literal.isValue_recast hkind required⟩

include hl in
theorem finds_fitChild (request : String) (source : InstructionId) (pos : Nat) :
    Finds ws f (fitChild scope request source pos)
      { checked := (ws.forest.childId? source pos).toList } fun _ => True := by
  intro n ws₁ hn
  have hsame := hn.check (ws.forest.childId? source pos).toList
  refine .get fun _ => ?_
  rw [Forest.childName?, Forest.child?, hn.alike.childId?_eq]
  cases hchild : ws.forest.childId? source pos with
  | none =>
    rw [hchild] at hsame
    exact .pure ⟨hsame, trivial⟩
  | some child =>
    rw [hchild] at hsame
    refine .bind (runs_fit_of_loaded (hn.alike.loaded hl) scope _ request) ?_
    rintro r ws₁ - - ⟨rfl, hr⟩
    cases r with
    | asIs => exact .pure ⟨hsame, trivial⟩
    | replace text =>
      obtain ⟨hold, hnew⟩ := hr text rfl
      have hrun : updateForest (fun f => f.setChildName source pos text) ws₁ =
          .ok () ((rename child text).apply ws₁) := by
        show EStateM.Result.ok () { ws₁ with forest := ws₁.forest.setChildName source pos text } = _
        rw [Forest.setChildName, hn.alike.childId?_eq, hchild]
        rfl
      exact .change (.rename child text) hrun trivial trivial ⟨hn.recast hold hnew, trivial⟩

include hl in
theorem finds_fitValue (source : InstructionId) (pos : Nat) (expected? : Option String) :
    Finds ws f
      (match expected? with
        | some expected => fitChild scope expected source pos
        | none => pure ())
      { checked := (expected?.bind fun _ => ws.forest.childId? source pos).toList } fun _ => True := by
  cases expected? with
  | none => exact Finds.pure trivial
  | some expected => exact finds_fitChild hl expected source pos

include hs hl hf hscope in
theorem finds_settleValue (source : InstructionId) (pos : Nat) (expected? : Option String) :
    Finds ws f (settleValue scope source pos expected?)
      (ws.valueFindings f scope source (pos, expected?)) fun _ => True := by
  refine Finds.look fun ws₁ halike => ?_
  rw [valueFindings, ← halike.valueMention?_eq, valueMention?]
  cases hvalue : ws₁.forest.childName? source pos with
  | none =>
    have hchild : ws.forest.childId? source pos = none := by
      rw [← halike.childId?_eq]
      simpa [Forest.childName?, Forest.child?] using hvalue
    rw [hchild]
    cases expected? <;> exact Finds.pure trivial
  | some value =>
    have hlanguage : Finds ws f (discard (languageFor scope)) {} fun _ => True :=
      Finds.skip finds_languageFor fun _ _ => Finds.pure trivial
    dsimp only [Option.bind_some]
    refine Finds.skip hlanguage fun _ _ => ?_
    split
    · next hname =>
      refine Finds.skip (finds_componentNamed hl value) fun target ht => ?_
      rw [Option.toList_some, Findings.all_cons, Findings.all_nil, Findings.append_empty]
      exact finds_refer hs hf hscope (m := .use value) ht rfl
        (finds_fitValue hl source pos expected?)
    · rw [Option.toList_none, Findings.all_nil, Findings.empty_append]
      exact finds_fitValue hl source pos expected?

/-! ### Components -/

include hs hl hf hscope

omit hs in
theorem finds_settleType (type : String) :
    Finds ws f (settleType scope type)
      (Findings.all (ws.typeMention? scope type).toList (ws.leadsTo f scope)) fun _ => True := by
  refine Finds.skip finds_languageFor ?_
  rintro _ rfl
  rw [typeMention?]
  cases (ws.languageAt scope).builtin? type with
  | some _ => exact Finds.pure trivial
  | none =>
    refine Finds.skip (finds_componentNamed hl type) fun target ht => ?_
    rw [Option.toList_some, Findings.all_cons, Findings.all_nil, Findings.append_empty,
      leadsTo_component (m := .type type) ht]
    exact Finds.mentioning (finds_noteDependency hf hscope target) ⟨target, ht⟩

theorem finds_settleCall (source : InstructionId) (callee : String) :
    Finds ws f (settleCall scope source callee)
      (ws.leadsTo f scope (.callee callee) ++
        Findings.all (List.range (ws.forest.get source).children.length) fun pos =>
          ws.valueFindings f scope source (pos, (ws.argumentTypes scope callee)[pos]?))
      fun t => ws.targetAt? scope callee = some t := by
  -- the arguments, once the types of the parameters are known
  have hrest : ∀ (target : Target) (params : List String), params = ws.argumentTypes scope callee →
      ws.targetAt? scope callee = some target →
      Finds ws f
        (do
          let i ← instruction source
          (List.range i.children.length).forM fun pos => settleValue scope source pos params[pos]?
          return target)
        (Findings.all (List.range (ws.forest.get source).children.length) fun pos =>
          ws.valueFindings f scope source (pos, (ws.argumentTypes scope callee)[pos]?))
        fun t => ws.targetAt? scope callee = some t := by
    rintro target _ rfl ht
    refine Finds.instruction fun ws₁ halike => ?_
    rw [halike.children_eq, ← Findings.append_empty (Findings.all _ _)]
    exact Finds.bind (Finds.forM fun pos _ => finds_settleValue hs hl hf hscope source pos _)
      fun _ _ => Finds.pure ht
  intro n ws₁ hn
  refine .bind (runs_targetNamed_of_loaded (hn.alike.loaded hl) scope fun _ _ _ => trivial) ?_
  rintro t _ - - ⟨ht, rfl⟩
  rw [hn.alike.targetAt?_eq] at ht
  cases t with
  | native function =>
    have hnoted : ws.Noted f (n ++ ws.leadsTo f scope (.callee callee))
        (ws₁.noting scope (.native function)) := by
      have hlead := (hn.lead (m := .callee callee) ⟨_, ht⟩).library hf function.library
      rw [noting, hn.alike.fileOf?_eq, hscope, leadsTo, Mention.name, ht]
      rwa [Findings.append_assoc] at hlead
    have hparams : [] = ws.argumentTypes scope callee := by rw [argumentTypes, ht]
    rw [← Findings.append_assoc]
    exact hrest (.native function) [] hparams ht _ _ hnoted
  | component function =>
    refine finds_refer hs hf hscope (m := .callee callee) ht rfl (Finds.look fun ws₂ halike => ?_)
      n ws₁ hn
    refine hrest _ _ ?_ ht
    rw [halike.languageAt_eq, halike.languageAt_eq, halike.parameterTypes_eq, argumentTypes,
      ht]

theorem finds_settleAssign (source : InstructionId) (name : String) :
    Finds ws f (settleAssign scope source name)
      (ws.leadsTo f scope (.use name) ++
        ws.valueFindings f scope source (0, ws.assignedType? scope name))
      fun t => ws.targetAt? scope name = some t := by
  refine Finds.skip (finds_componentNamed hl name) fun member ht => ?_
  refine finds_refer hs hf hscope (m := .use name) ht rfl (Finds.look fun ws₂ halike => ?_)
  have htype : (ws₂.kind member).memberType? = ws.assignedType? scope name := by
    rw [halike.memberType?_eq, assignedType?, ht]
  rw [htype, ← Findings.append_empty (ws.valueFindings ..)]
  exact Finds.bind (finds_settleValue hs hl hf hscope source 0 _) fun _ _ => Finds.pure ht

theorem finds_settleGiveBack (source : InstructionId) :
    Finds ws f (settleGiveBack scope source)
      (ws.valueFindings f scope source (0, ws.givenBackType? scope)) fun _ => True := by
  refine Finds.look fun ws₁ halike => ?_
  have htype : (((ws₁.component scope).parent?.bind fun parent => (ws₁.kind parent).result?).filter
      (· ≠ "void")) = ws.givenBackType? scope := by
    simp only [givenBackType?, halike.parent?_eq,
      halike.of_kind Kind.result? Kind.result?_still]
  dsimp only
  rw [htype]
  exact finds_settleValue hs hl hf hscope source 0 _

theorem finds_settleOperation {o : Operation} (hk : ws.kind scope = .operation o) :
    Finds ws f (settleOperation scope o.action) (ws.findings f scope) fun _ => True := by
  have hlt := hs.lt_size_of_fileOf? hscope
  have haction : ws.action? scope = some o.action := by rw [Workspace.action?, hk]
  -- the target is noted last
  have hdone : ∀ target?, target? = ws.actionTarget? scope → Finds ws f
      (update scope (Edit.resolved target?).apply) { resolved := [scope] } fun _ => True := by
    rintro _ rfl n ws₁ hn
    exact .change (.edit scope (.resolved (ws.actionTarget? scope))) rfl trivial trivial
      ⟨hn.resolve hlt, trivial⟩
  refine Finds.component fun ws₁ halike => ?_
  rw [halike.instruction?_eq, findings_eq, ownMentions, hk, haction]
  cases (ws.component scope).instruction? with
  | none => exact Finds.pure trivial
  | some source =>
    rw [actionTarget?, haction] at hdone
    simp only [Option.isSome_some, Bool.and_self, if_true, values, hk]
    generalize o.action = action at hdone
    cases action with
    | call callee =>
      simp only [Action.mention?, Option.toList_some, Findings.all_cons, Findings.all_nil,
        Findings.append_empty, Findings.all_map]
      rw [← Findings.append_assoc]
      exact Finds.bind (finds_settleCall hs hl hf hscope source callee) fun t ht =>
        hdone (some t) ht.symm
    | assign name =>
      simp only [Action.mention?, Option.toList_some, Findings.all_cons, Findings.all_nil,
        Findings.append_empty]
      rw [← Findings.append_assoc]
      exact Finds.bind (finds_settleAssign hs hl hf hscope source name) fun t ht =>
        hdone (some t) ht.symm
    | giveBack =>
      simp only [Action.mention?, Option.toList_none, Findings.all_cons, Findings.all_nil,
        Findings.append_empty, Findings.empty_append]
      exact Finds.bind (finds_settleGiveBack hs hl hf hscope source) fun _ _ => hdone none rfl

theorem finds_settleMember {m : Member} (hk : ws.kind scope = .member m) :
    Finds ws f (settleMember scope m) (ws.findings f scope) fun _ => True := by
  have haction : ws.action? scope = none := by rw [Workspace.action?, hk]
  rw [findings_eq, ownMentions, hk, haction]
  refine Finds.bind (finds_settleType hl hf hscope m.type) fun _ _ => ?_
  refine Finds.component fun ws₁ halike => ?_
  rw [halike.instruction?_eq]
  cases (ws.component scope).instruction? with
  | none => cases m.value? <;> exact Finds.pure trivial
  | some source =>
    simp only [values, hk]
    cases m.value? with
    | none => exact Finds.pure trivial
    | some value =>
      simp only [Option.isSome_some, Option.isSome_none, Bool.false_and, Bool.false_eq_true, if_true,
        if_false, Findings.all_cons, Findings.all_nil, Findings.append_empty]
      exact finds_settleValue hs hl hf hscope source 0 (some m.type)

theorem finds_settleOwn {kind : Kind} (hk : kind.still = (ws.kind scope).still) :
    Finds ws f (settleOwn scope kind) (ws.findings f scope) fun _ => True := by
  -- a component of another kind has no names of its own
  have hnone : ∀ k, ws.kind scope = k →
      (∀ m, k ≠ .member m) → (∀ s, k ≠ .function s) → (∀ o, k ≠ .operation o) →
      ws.findings f scope = {} := by
    rintro k hk hm hf ho
    have hvalues : ∀ source, ws.values scope source = [] := fun source => by
      rw [values, hk]
      cases k <;> grind
    rw [Workspace.findings_eq, Workspace.ownMentions, Workspace.action?, hk]
    cases k with
    | member m => exact absurd rfl (hm m)
    | function s => exact absurd rfl (hf s)
    | operation o => exact absurd rfl (ho o)
    | _ => cases (ws.component scope).instruction? <;> simp [hvalues]
  cases kind with
  | member m =>
    cases hkind : ws.kind scope with
    | member m' =>
      rw [hkind] at hk
      cases hk
      exact finds_settleMember hs hl hf hscope hkind
    | _ =>
      rw [hkind] at hk
      cases hk
  | function s =>
    cases hkind : ws.kind scope with
    | function s' =>
      rw [hkind] at hk
      cases hk
      have hvalues : ∀ source, ws.values scope source = [] := fun source => by
        rw [values, hkind]
      have hfindings : ws.findings f scope =
          Findings.all (s.result?.bind (ws.typeMention? scope)).toList (ws.leadsTo f scope) := by
        rw [Workspace.findings_eq, Workspace.ownMentions, Workspace.action?, hkind]
        cases (ws.component scope).instruction? <;> simp [hvalues]
      rw [hfindings, settleOwn]
      cases s.result? with
      | none => exact Finds.pure trivial
      | some type => exact finds_settleType hl hf hscope type
    | _ =>
      rw [hkind] at hk
      cases hk
  | operation o =>
    cases hkind : ws.kind scope with
    | operation o' =>
      rw [hkind] at hk
      have haction : o.action = o'.action := by
        simp only [Kind.still, Kind.operation.injEq, Operation.mk.injEq] at hk
        exact hk.1
      rw [settleOwn, haction]
      exact finds_settleOperation hs hl hf hscope hkind
    | _ =>
      rw [hkind] at hk
      cases hk
  | _ =>
    rw [hnone _ rfl]
    · exact Finds.pure trivial
    all_goals
      intro x hx
      rw [hx] at hk
      cases hk

omit hscope in
/-- **What settling a component and those below it finds**, by induction on the levels. -/
theorem finds_settleWithin (depth : Nat) {id : ComponentId}
    (hid : ws.isFile id = false → ws.fileOf? id = some f) :
    Finds ws f (settleWithin depth id) (Findings.all (ws.walkWithin depth id) (ws.findings f))
      fun _ => True := by
  induction depth generalizing id with
  | zero => exact Finds.pure trivial
  | succ depth ih =>
    refine Finds.component fun ws₁ halike => ?_
    rw [walkWithin]
    have hrest : ws.isFile id = false → Finds ws f
        (do
          settleOwn id (ws₁.component id).kind
          let c ← component id
          c.childIds.forM (settleWithin depth))
        (Findings.all (if ws.isFile id then [] else
          id :: (ws.component id).childIds.flatMap (ws.walkWithin depth)) (ws.findings f))
        fun _ => True := by
      intro hno
      rw [hno, if_neg (by decide), Findings.all_cons, Findings.all_flatMap]
      refine Finds.bind (finds_settleOwn hs hl hf (hid hno) (halike.kind_eq id)) fun _ _ => ?_
      refine Finds.component fun ws₂ halike₂ => ?_
      rw [halike₂.childIds_eq]
      refine Finds.forM fun child hchild => ih fun hfile => ?_
      exact (hs.fileOf?_child hchild hfile).trans (hid hno)
    have hisFile := halike.isFile_eq id
    rw [isFile, kind] at hisFile
    cases hkind : (ws₁.component id).kind with
    | file s =>
      -- a file below is settled on its own
      rw [hkind] at hisFile
      rw [← hisFile]
      exact Finds.pure trivial
    | _ =>
      rw [hkind] at hrest hisFile
      exact hrest hisFile.symm

end Resolving

end Finds

/-- With all files loaded there is room for just what is there. -/
theorem capacity_of_loaded {ws : Workspace} (hl : ws.Loaded) : ws.capacity = ws.size := by
  have hzero : ∀ c ∈ ws.components.toList, ws.growth c = 0 := by
    intro c hc
    obtain ⟨id, hid, rfl⟩ := List.getElem_of_mem hc
    have hcomponent : ws.component id = ws.components.toList[id] := by
      simp at hid
      simp [Workspace.component, hid]
    rw [Workspace.growth, ← hcomponent]
    split
    · rfl
    · next f hf => rw [if_pos (hl id f hf)]
  rw [Workspace.capacity, Nat.add_eq_left]
  refine List.foldrRecOn (motive := fun n => n = 0) _ _ rfl fun n hn c hc => ?_
  rw [hzero c hc, hn]

/-- **What settling a file finds** is what is found along the walk over it. -/
theorem noted_of_settle {ws ws' : Workspace} {f : ComponentId} (hs : ws.Sound) (hl : ws.Loaded)
    {file : SourceFile} (hfile : (ws.component f).file? = some file) (hnew : file.settled = false)
    (hrun : settle f ws = .ok () ws') :
    ws.Noted f (Findings.all (ws.walk f) (ws.findings f)) ws' := by
  have hf := isFile_of_file? hfile
  have hlt := lt_size_of_isFile hf
  set ws₁ := (edit f (.file .settled)).apply ws with hws₁
  -- nothing is found yet; the file counts as settled
  have hstart : ws.Noted f {} ws₁ := by
    refine ⟨by simp [hws₁, apply], fun id hid => ?_, rfl, fun _ => .inl rfl, rfl, by simp⟩
    rw [hws₁, apply, component_modify_eq]
    by_cases heq : id = f
    · subst heq
      rw [if_pos ⟨rfl, hlt⟩]
      cases hk : (ws.component id).kind with
      | file s =>
        simp [noted, kind, hk, Edit.apply, Kind.mapFile, FileEdit.apply, addNew]
      | _ =>
        rw [Component.file?, hk] at hfile
        cases hfile
    · rw [if_neg fun hand => heq hand.1]
      cases hk : (ws.component id).kind <;> simp [noted, kind, hk, heq]
      all_goals rw [← hk]
  have hs₁ : ws₁.Sound := hs.apply _ trivial
  have hgo : settle f ws = (ws₁.component f).childIds.forM (settleWithin ws₁.capacity) ws₁ := by
    show (load f >>= _) ws = _
    rw [bind_of_ok (load_of_loaded hl f), bind_component, hfile]
    show (if file.settled then pure () else _ : Build Unit) ws = _
    rw [hnew]
    rfl
  rw [hgo, hstart.alike.childIds_eq, capacity_of_loaded (hstart.alike.loaded hl), hstart.size_eq] at hrun
  have hfinds : Finds ws f ((ws.component f).childIds.forM (settleWithin ws.size))
      (Findings.all (ws.component f).childIds fun child =>
        Findings.all (ws.walkWithin ws.size child) (ws.findings f)) fun _ => True :=
    Finds.forM fun child hchild => finds_settleWithin hs hl hf ws.size fun hno =>
      (hs.fileOf?_child hchild hno).trans (hs.fileOf?_self hf)
  have hnoted := ((hfinds {} ws₁ hstart).of_ok hs₁ hrun).2.1
  rwa [Findings.empty_append, ← Findings.all_flatMap] at hnoted

end Build

/-! ## What is found along the walk -/

namespace Workspace

variable {ws : Workspace} {f : ComponentId}

section Walk

variable (ws f)

theorem mentions_findings : (Findings.all (ws.walk f) (ws.findings f)).mentions = ws.mentionsIn f := by
  have hleads : ∀ x m, (ws.leadsTo f x m).mentions = [(x, m)] := by
    intro x m
    rw [leadsTo]
    split <;> rfl
  simp [Findings.all, findings, mentionsIn, hleads, List.map_eq_flatMap]

theorem files_findings :
    (Findings.all (ws.walk f) (ws.findings f)).files = ws.filesOf f (ws.mentionsIn f) := by
  simp only [Findings.all, findings, filesOf, mentionsIn, List.filterMap_flatMap, Findings.files_append,
    List.append_nil, List.filterMap_map]
  refine List.flatMap_congr fun x _ => ?_
  rw [List.filterMap_eq_flatMap_toList]
  refine List.flatMap_congr fun m _ => ?_
  simp only [leadsTo, Function.comp]
  rcases ws.targetAt? x m.name with _ | _ | _ <;> rfl

theorem libraries_findings :
    (Findings.all (ws.walk f) (ws.findings f)).libraries = ws.librariesOf (ws.mentionsIn f) := by
  simp only [Findings.all, findings, librariesOf, mentionsIn, List.filterMap_flatMap,
    Findings.libraries_append, List.append_nil, List.filterMap_map]
  refine List.flatMap_congr fun x _ => ?_
  rw [List.filterMap_eq_flatMap_toList]
  refine List.flatMap_congr fun m _ => ?_
  simp only [leadsTo, Function.comp]
  rcases ws.targetAt? x m.name with _ | _ | _ <;> rfl

theorem checked_findings :
    (Findings.all (ws.walk f) (ws.findings f)).checked = (ws.walk f).flatMap ws.checks := by
  have hleads : ∀ x, (Findings.all (ws.mentions x) (ws.leadsTo f x)).checked = [] := fun x =>
    List.flatMap_eq_nil_iff.mpr fun m _ => (ws.leadsTo_rest f x m).1
  refine List.flatMap_congr fun x _ => ?_
  rw [findings, Findings.checked_append, hleads, List.nil_append]

variable {ws f}

variable {id : ComponentId}

/-- A component comes to be referenced if a name that marks leads to it. -/
theorem mem_marked_findings :
    id ∈ (Findings.all (ws.walk f) (ws.findings f)).marked ↔
      ∃ p ∈ ws.mentionsIn f, p.2.marks = true ∧ ws.targetAt? p.1 p.2.name = some (.component id) := by
  have hleads : ∀ x m, id ∈ (ws.leadsTo f x m).marked ↔
      m.marks = true ∧ ws.targetAt? x m.name = some (.component id) := by
    intro x m
    rw [leadsTo]
    rcases ws.targetAt? x m.name with _ | other | _
    · simp
    · by_cases hm : m.marks <;> simp [hm, eq_comm]
    · simp
  simp only [Findings.all, findings, mentionsIn, Findings.marked_append, List.append_nil,
    List.mem_flatMap, List.mem_map, hleads]
  constructor
  · rintro ⟨x, hx, m, hm, hmarks⟩
    exact ⟨(x, m), ⟨x, hx, m, hm, rfl⟩, hmarks⟩
  · rintro ⟨_, ⟨x, hx, m, hm, rfl⟩, hmarks⟩
    exact ⟨x, hx, m, hm, hmarks⟩

theorem mem_resolved_findings :
    id ∈ (Findings.all (ws.walk f) (ws.findings f)).resolved ↔
      id ∈ ws.walk f ∧ (ws.action? id).isSome = true ∧
        (ws.component id).instruction?.isSome = true := by
  have hleads : ∀ x m, (ws.leadsTo f x m).resolved = [] := fun x m => (ws.leadsTo_rest f x m).2
  simp only [Findings.all, findings, Findings.resolved_append, List.mem_flatMap, List.mem_append,
    hleads, List.not_mem_nil, and_false, exists_false, false_or]
  constructor
  · rintro ⟨x, hx, hmem⟩
    split at hmem
    · next hboth =>
      rw [List.mem_singleton] at hmem
      subst hmem
      exact ⟨hx, by simpa using hboth⟩
    · cases hmem
  · rintro ⟨hx, hboth⟩
    exact ⟨id, hx, by simp [hboth]⟩

end Walk

end Workspace

end LightHeaders
