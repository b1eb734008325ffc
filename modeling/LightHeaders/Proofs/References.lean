import LightHeaders.Proofs.Findings
import LightHeaders.Proofs.Owners

set_option autoImplicit false

/-! # The references of a file

Settling a file that was not settled before finds its references and changes nothing else
(`History.references_of_settle`). Before that the file has no dependencies (`Workspace.Undepended`) and, where
none came with one, no operation in it has a target (`Workspace.Untouched`): only settling notes them.
-/

namespace LightHeaders

open Text Workspace

/-! ## Before a file is settled -/

namespace Workspace

/-- A file that was not settled yet has no dependencies, and no operation in it has a target. What gives
back never has one. -/
structure Untouched (ws : Workspace) : Prop where
  dependencies : ∀ id file, (ws.component id).file? = some file → file.settled = false →
    file.dependencies = []
  target : ∀ id o, ws.kind id = .operation o → (o.action = .giveBack ∨ ¬ws.InSettled id) →
    o.target? = none

end Workspace

/-- The kind is no file, and an operation of that kind has no target yet. -/
def Kind.Fresh (k : Kind) : Prop := k.NoFile ∧ ∀ o, k = .operation o → o.target? = none

/-- Files are made only for what is at a path, and operations without a target. -/
def FreshCall (_ : Workspace) (c : Call) : Prop := c.Brings Kind.Fresh

section Untouched

variable {K : Kind → Prop} {F H : Prop} {ws ws' : Workspace} {c : Change}

theorem Works.untargeted (hK : ∀ k, K k → k.Fresh) (h : Works K F H ws c) {o : Operation}
    (hnew : c.newKind? = some (.operation o)) : o.target? = none := by
  cases h with
  | emit mem =>
    cases mem with
    | settle mem =>
      cases mem with
      | load mem =>
        cases mem with
        | declare _ _ _ _ _ unsettled =>
          cases hnew
          exact unsettled
        | _ => cases hnew
      | _ => cases hnew
    | _ => cases hnew
  | plan mem =>
    obtain ⟨_, hkind⟩ := mem.newKind? hnew
    cases hkind
  | root _ _ given | below _ _ _ _ given =>
    cases hnew
    exact (hK _ given).2 o rfl
  | _ => cases hnew

theorem FileEdit.dependencies_apply (g : FileEdit) (f : SourceFile) :
    (g.apply f).dependencies = f.dependencies ∨ ∃ other, g = .dependency other := by
  cases g with
  | dependency other => exact .inr ⟨other, rfl⟩
  | library name =>
    simp only [apply]
    split <;> exact .inl rfl
  | _ => exact .inl rfl

/-- A file that was not settled yet has no dependencies. -/
def Workspace.Undepended (ws : Workspace) : Prop :=
  ∀ id file, (ws.component id).file? = some file → file.settled = false → file.dependencies = []

theorem Works.undepended (hK : ∀ k, K k → k.NoFile) (h : Works K F H ws c) (legal : c.Legal ws)
    (hu : ws.Undepended) : (c.apply ws).Undepended := by
  intro id file hfile hnew
  rcases c.file?_apply legal id with heq | ⟨-, kind, hkind, heq⟩ | ⟨-, g, rfl, heq⟩
  · exact hu id file (heq ▸ hfile) hnew
  · rw [h.blank hK hkind file (heq ▸ hfile)]
  · rw [heq] at hfile
    obtain ⟨file', hfile', rfl⟩ := Option.map_eq_some_iff.mp hfile
    have hold : file'.settled = false := by
      by_contra hset
      rw [g.settled_apply (by simpa using hset)] at hnew
      cases hnew
    rcases g.dependencies_apply file' with hsame | ⟨other, rfl⟩
    · rw [hsame]
      exact hu id file' hfile' hold
    · rw [h.licensed _ hfile'] at hold
      cases hold

theorem Workspace.undepended_new (settings : Settings) (disk : Disk) (readers : List Language) :
    (new settings disk readers).Undepended := by
  intro id file hfile
  rw [component_new] at hfile
  cases hfile

/-- **Calls leave what is not settled untouched.** -/
theorem Works.untouched (hK : ∀ k, K k → k.Fresh) (h : Works K F H ws c) (hs : ws.Sound) (legal : c.Legal ws)
    (hu : ws.Untouched) : (c.apply ws).Untouched where
  dependencies := h.undepended (fun k hk => (hK k hk).1) legal hu.dependencies
  target id o hk hback := by
    have hold : o.action = .giveBack ∨ ¬ws.InSettled id := hback.imp_right fun hno hsettled =>
      hno (hsettled.extended (.single (P := fun _ _ => True) c legal trivial) hs)
    rcases c.operation_apply legal hk with hk | hnew | ⟨t?, o', rfl, hwas, rfl⟩
    · exact hu.target id o hk hold
    · exact h.untargeted hK hnew
    · obtain ⟨hgive, hsettled⟩ := h.licensed
      have haction : ws.action? id = some o'.action := by rw [action?, hwas]
      rcases hold with hgives | hno
      · exact hgive (haction.trans (congrArg some hgives))
      · exact absurd hsettled hno

theorem Reach.untouched {L : Prop} {D : ComponentId → Prop} (h : Reach (Emits F L H D) ws ws') (hs : ws.Sound)
    (hu : ws.Untouched) : ws'.Untouched :=
  h.invariant (I := Workspace.Untouched) hs hu fun _ _ hs legal hc hu =>
    (Works.emit (K := Kind.Fresh) (hc.relax False.elim fun _ h => h)).untouched (fun _ hk => hk) hs legal hu

theorem History.untouched (h : History FreshCall ws) : ws.Untouched := by
  refine h.invariant (fun _ _ hc => hc)
    (fun settings disk readers => ⟨undepended_new settings disk readers, fun id o hk => ?_⟩)
    fun _ _ hs legal hc hu => hc.untouched (fun _ hk => hk) hs legal hu
  rw [kind, component_new] at hk
  cases hk

theorem History.undepended (h : History FiledCall ws) : ws.Undepended :=
  h.invariant (fun _ _ hc => hc.brings) undepended_new fun _ _ _ legal hc hu =>
    hc.undepended (fun _ hk => hk) legal hu

end Untouched

/-! ## Settling a file -/

namespace Workspace

variable {ws ws' : Workspace} {f : ComponentId} {n : Findings}

theorem Noted.component_eq (h : ws.Noted f n ws') (id : ComponentId) :
    ws'.component id = { ws.component id with
      referenced := (ws'.component id).referenced, kind := ws'.kind id } := by
  by_cases hid : id < ws.size
  · rw [kind, h.component id hid]
    rfl
  · have hle := Nat.le_of_not_lt hid
    rw [kind, ws'.component_of_size_le (h.size_eq ▸ hle), ws.component_of_size_le hle]

theorem Noted.file?_eq (h : ws.Noted f n ws') {file : SourceFile}
    (hfile : (ws.component f).file? = some file) :
    (ws'.component f).file? = some { file with
      settled := true
      dependencies := addNew file.dependencies n.files
      libraries := addNew file.libraries n.libraries } := by
  have hlt := lt_size_of_isFile (isFile_of_file? hfile)
  rw [h.component f hlt]
  rw [Component.file?] at hfile
  cases hk : (ws.component f).kind with
  | file s =>
    rw [hk] at hfile
    cases hfile
    simp [noted, kind, hk, Component.file?, Kind.file?]
  | _ =>
    rw [hk] at hfile
    cases hfile

variable {x : ComponentId}

theorem Noted.kind_of_resolved (h : ws.Noted f n ws') (hx : x ∈ n.resolved) {o : Operation}
    (ho : ws.kind x = .operation o) :
    ws'.kind x = .operation { o with target? := ws.actionTarget? x } := by
  have hlt : x < ws.size := Nat.lt_of_not_le fun hle => by
    rw [kind, ws.component_of_size_le hle] at ho
    cases ho
  rw [kind, h.component x hlt, noted, ho]
  simp [hx]

theorem Noted.kind_eq (h : ws.Noted f n ws') (hf : x ≠ f)
    (hx : ∀ o, ws.kind x = .operation o → x ∈ n.resolved → o.target? = ws.actionTarget? x) :
    ws'.kind x = ws.kind x := by
  by_cases hlt : x < ws.size
  · rw [kind, h.component x hlt, noted]
    cases hk : ws.kind x with
    | file s => simp [hf]
    | operation o =>
      by_cases hmem : x ∈ n.resolved
      · simp [hmem, ← hx o hk hmem]
      · simp [hmem]
    | _ => rfl
  · have hle := Nat.le_of_not_lt hlt
    rw [kind, ws'.component_of_size_le (h.size_eq ▸ hle), kind,
      ws.component_of_size_le hle]

end Workspace

/-- **Settling a file finds its references, and nothing else.** With all files loaded, the names that
are mentioned in a file that was not settled before all lead somewhere. The operations in it get
their targets, and what gives back has none; the components that come to be referenced are those that
are called, assigned or named as values; the dependencies of the file are the other files that its names,
declared types among them, lead to, once each and in the order of the walk. Beyond that the libraries of
native functions are noted, and literals that are checked against a type can be written anew. -/
theorem History.references_of_settle {ws ws' : Workspace} (h : History FiledCall ws) (hl : ws.Loaded)
    {f : ComponentId} {file : SourceFile} (hfile : (ws.component f).file? = some file)
    (hnew : file.settled = false) (hrun : Build.settle f ws = .ok () ws') :
    (∀ scope name t, ws.targetAt? scope name = some t ↔
      ∃ after, Build.targetNamed scope name ws = .ok t after) ∧
    (∀ x, x ∈ ws.walk f ↔ ws.DeclaredIn f x) ∧
    (∀ p ∈ ws.mentionsIn f, p.2.Leads ws p.1) ∧
    (∀ x o name, ws.DeclaredIn f x → (ws.component x).instruction? ≠ none →
      ws.kind x = .operation o → o.action.name? = some name →
      ∃ t, ws.targetAt? x name = some t ∧ ws'.kind x = .operation { o with target? := some t }) ∧
    (∀ x o, ws.DeclaredIn f x → (ws.component x).instruction? ≠ none →
      ws.kind x = .operation o → o.action = .giveBack →
      ws'.kind x = .operation { o with target? := none }) ∧
    (∀ id, (ws'.component id).referenced = true ↔ (ws.component id).referenced = true ∨
      ∃ p ∈ ws.mentionsIn f, p.2.marks = true ∧ ws.targetAt? p.1 p.2.name = some (.component id)) ∧
    (ws'.component f).file? = some { file with
      settled := true
      dependencies := (ws.filesOf f (ws.mentionsIn f)).eraseDups
      libraries := addNew file.libraries (ws.librariesOf (ws.mentionsIn f)) } ∧
    (∀ x, x ≠ f → ws'.kind x = ws.kind x ∨
      ws.DeclaredIn f x ∧ (ws.component x).instruction? ≠ none ∧ ∃ o, ws.kind x = .operation o) ∧
    (∀ id, ws'.component id = { ws.component id with
      referenced := (ws'.component id).referenced, kind := ws'.kind id }) ∧
    (∀ i, ws'.forest.get i = ws.forest.get i ∨ (∃ x, ws.DeclaredIn f x ∧ i ∈ ws.checks x) ∧
      ∃ text, ws'.forest.get i = { ws.forest.get i with name := text } ∧
        (Literal.reading (ws.forest.get i).name).isValue = true ∧
        (Literal.reading text).isValue = true) ∧
    ws' = { ws with components := ws'.components, forest := ws'.forest } ∧
    ws'.size = ws.size ∧ ws'.forest.size = ws.forest.size := by
  have hs := h.sound
  have hn := Build.noted_of_settle hs hl hfile hnew hrun
  have hwalk : ∀ x, x ∈ ws.walk f ↔ ws.DeclaredIn f x := fun x => hs.mem_walk_iff
  have hresolved : ∀ {x o}, ws.kind x = .operation o → (ws.component x).instruction? ≠ none →
      ws.DeclaredIn f x → x ∈ (Findings.all (ws.walk f) (ws.findings f)).resolved := by
    intro x o ho hsource hx
    refine mem_resolved_findings.mpr ⟨(hwalk x).mpr hx, ?_, Option.isSome_iff_ne_none.mpr hsource⟩
    rw [Workspace.action?, ho]
    rfl
  refine ⟨fun scope name t => ⟨fun ht => ⟨_, Build.targetNamed_eq_of_loaded hl ht⟩, ?_⟩, hwalk, ?_, ?_, ?_,
    ?_, ?_, ?_, hn.component_eq, ?_, hn.rest, hn.size_eq, hn.forest_size⟩
  · rintro ⟨_, ht⟩
    exact (Build.targetNamed_of_loaded hl ht).1
  · intro p hp
    exact hn.leads p (ws.mentions_findings f ▸ hp)
  · intro x o name hx hsource ho hname
    obtain ⟨m, hm, rfl⟩ := Action.mention?_of_name? hname
    have hmention : (x, m) ∈ ws.mentionsIn f := by
      refine List.mem_flatMap.mpr ⟨x, (hwalk x).mpr hx, List.mem_map_of_mem ?_⟩
      rw [Workspace.mentions, Workspace.ownMentions, ho]
      simp [Option.isSome_iff_ne_none.mpr hsource, hm]
    obtain ⟨t, ht⟩ := (hn.leads (x, m) (ws.mentions_findings f ▸ hmention)).target
    refine ⟨t, ht, ?_⟩
    rw [hn.kind_of_resolved (hresolved ho hsource hx) ho, Workspace.actionTarget?, Workspace.action?, ho]
    simp [hname, ht]
  · intro x o hx hsource ho hback
    rw [hn.kind_of_resolved (hresolved ho hsource hx) ho, Workspace.actionTarget?, Workspace.action?, ho]
    simp [hback, Action.name?]
  · intro id
    by_cases hid : id < ws.size
    · rw [hn.component id hid, Workspace.noted]
      simp [mem_marked_findings]
    · have hle := Nat.le_of_not_lt hid
      rw [ws'.component_of_size_le (hn.size_eq ▸ hle), ws.component_of_size_le hle]
      refine ⟨.inl, ?_⟩
      rintro (hold | ⟨p, -, -, ht⟩)
      · exact hold
      · exact absurd (hs.targetAt?_fits ht).1 hid
  · rw [hn.file?_eq hfile, h.undepended f file hfile hnew, addNew_nil_left,
      ws.files_findings, ws.libraries_findings]
  · intro x hne
    by_cases hgiven : ws.DeclaredIn f x ∧ (ws.component x).instruction? ≠ none ∧
        ∃ o, ws.kind x = .operation o
    · exact .inr hgiven
    · refine .inl (hn.kind_eq hne fun o ho hmem => ?_)
      obtain ⟨hx, -, hsource⟩ := mem_resolved_findings.mp hmem
      exact absurd ⟨(hwalk x).mp hx, Option.isSome_iff_ne_none.mp hsource, o, ho⟩ hgiven
  · intro i
    rcases hn.instruction i with heq | ⟨hi, hrest⟩
    · exact .inl heq
    · rw [ws.checked_findings] at hi
      obtain ⟨x, hx, hi⟩ := List.mem_flatMap.mp hi
      exact .inr ⟨⟨x, (hwalk x).mp hx, hi⟩, hrest⟩

/-- A function with a parameter of a type in one file, a call with an argument and an assignment to a member
in another, and a native call: the type comes first in the walk and is not marked, both files are
dependencies once, and the argument `1` of a parameter of type `float` is written anew. -/
theorem History.references_of_settle_mixed :
    let f := "function x\n param a : h.t\n call g.z\n  value 1\n assign g.v\n  value g.v\n call __c_io_p\n"
    let disk : Disk := ⟨[(["f.light"], .file (.text f)),
      (["g.light"], .file (.text "declare v : int\nfunction z\n param p : float\n")),
      (["h.light"], .file (.text "struct t\n"))], ⟨"/"⟩⟩
    let ws := Call.play [.registerProject "p" ⟨"/"⟩ ⟨"/o"⟩ .plain, .load 0, .load 1, .load 2, .load 3]
      (Workspace.new {} disk [.light, .cpp])
    let ws' := (Build.settle 1).after ws
    History FiledCall ws ∧ ws.Loaded ∧
      ws.filesOf 1 (ws.mentionsIn 1) = [3, 2, 2, 2] ∧
      (∃ file, (ws'.component 1).file? = some file ∧ file.dependencies = [3, 2] ∧
        file.libraries = ["io"]) ∧
      ((List.range ws'.size).filter fun id => (ws'.component id).referenced) = [9, 10] ∧
      ws.forest.childName? 3 0 = some "1" ∧ ws'.forest.childName? 3 0 = some "1.0" := by
  intro f disk ws ws'
  have hhistory : History FiledCall ws := .play (by decide +kernel)
  obtain ⟨hloaded, hfiles, hlibraries, hok, ⟨file, hfile, hunsettled, hempty⟩, hmarks, hold, hnew⟩ :
      ws.Loaded ∧
      ws.filesOf 1 (ws.mentionsIn 1) = [3, 2, 2, 2] ∧
      ws.librariesOf (ws.mentionsIn 1) = ["io"] ∧ (Build.settle 1).succeeds ws = true ∧
      (∃ file ∈ (ws.component 1).file?, file.settled = false ∧ file.libraries = []) ∧
      ((List.range ws'.size).filter fun id => (ws'.component id).referenced) = [9, 10] ∧
      ws.forest.childName? 3 0 = some "1" ∧ ws'.forest.childName? 3 0 = some "1.0" := by
    decide +kernel
  obtain ⟨⟨⟩, hrun⟩ : ∃ u, Build.settle 1 ws = .ok u ws' := Build.ok_of_succeeds hok
  clear_value ws' ws
  obtain ⟨-, -, -, -, -, -, hnoted, -⟩ :=
    hhistory.references_of_settle hloaded hfile hunsettled hrun
  rw [hfiles, hlibraries, hempty] at hnoted
  have hdependencies : ([3, 2, 2, 2] : List ComponentId).eraseDups = [3, 2] := by decide
  have hnew' : addNew [] ["io"] = ["io"] := by decide
  exact ⟨hhistory, hloaded, hfiles, ⟨_, hnoted, hdependencies, hnew'⟩, hmarks, hold, hnew⟩

/-- What was given by hand: an operation that gives back loses the target it came with, and the value `y` of
a member that was not made from an instruction marks nothing, though the name leads somewhere. -/
theorem references_of_settle_given :
    let disk : Disk := ⟨[(["f.light"], .file (.text "declare y : int\n"))], ⟨"/"⟩⟩
    let ws := Call.play [.addFile none "f" ⟨"/f.light"⟩, .load 0, .plant { op := "value", name := "y" },
      .addComponent 0 "m" (.member { type := "int", value? := some 2 }) none,
      .plant { op := "return", name := "" },
      .addComponent 0 "r" (.operation ⟨.giveBack, some (.component 1)⟩) (some 3)]
      (Workspace.new {} disk [.light])
    let ws' := (Build.settle 0).after ws
    History FiledCall ws ∧ ws.Loaded ∧ (Build.settle 0).succeeds ws = true ∧
      ws.kind 3 = .operation ⟨.giveBack, some (.component 1)⟩ ∧
      ws'.kind 3 = .operation ⟨.giveBack, none⟩ ∧
      ws.kind 2 = .member { type := "int", value? := some 2 } ∧ (ws.forest.get 2).name = "y" ∧
      ws.targetAt? 2 "y" = some (.component 1) ∧ (ws'.component 1).referenced = false := by
  exact ⟨.play (by decide +kernel), by decide +kernel⟩

end LightHeaders
