import LightHeaders.Proofs.LiteralValues
import LightHeaders.Proofs.Loading
import LightHeaders.Proofs.Names

set_option autoImplicit false

/-! # What settling does

Settling a file resolves names, which can load other files; beyond that it marks components as
referenced, notes dependencies and targets, and writes literals anew (`Settles`, `makes_settle`).

A workspace is **plain** if no name in it holds a line feed. Loading keeps that whatever the sources
are, and settling keeps it because a name of a plain workspace resolves to a plain name and a literal
on one line is written anew on one line (`Reach.ready`).
-/

namespace LightHeaders

open Text Forest Workspace Literal

/-! ## Plain workspaces -/

/-- The target is there and is spelled on one line. -/
def Target.OneLine (ws : Workspace) : Target → Prop
  | .component id => id < ws.size ∧ LightHeaders.OneLine (ws.component id).name
  | .native f => LightHeaders.OneLine f.name

variable {P : Change.Class} {id : ComponentId} {f : SourceFile} {s : String} {t : Target} {ws' : Workspace}

variable {ws : Workspace} {c : Change} {G : ComponentId → Prop}

theorem Target.Fits.oneLine {name : String} (h : t.Fits ws (pieces '.' name))
    (hn : LightHeaders.OneLine name) : t.OneLine ws := by
  cases t with
  | component id => exact ⟨h.1, oneLine_of_mem_pieces hn h.2⟩
  | native f => exact (Build.oneLine_of_cFunctionOf? hn h).2

section Fits

open Workspace

variable {ws : Workspace}

theorem Workspace.Sound.childAt?_fits (hs : ws.Sound) (names : List String) {found : ComponentId}
    {read : List String} (hid : id < ws.size) (hname : (ws.component id).name ∈ read)
    (h : ws.childAt? id names = some found) :
    found < ws.size ∧ (ws.component found).name ∈ read ++ names := by
  induction names generalizing id read with
  | nil =>
    cases h
    rw [List.append_nil]
    exact ⟨hid, hname⟩
  | cons name rest ih =>
    rw [childAt?] at h
    split at h
    · next child hchild =>
      obtain ⟨hlt, -, hn, -⟩ := hs.child hchild
      have hread : (ws.component child).name ∈ read ++ [name] := by
        rw [hn]
        simp
      have hfits := ih hlt hread h
      rwa [List.append_assoc] at hfits
    · cases h

theorem Workspace.Sound.targetAt?_fits (hs : ws.Sound) {start : ComponentId} {name : String}
    (h : ws.targetAt? start name = some t) : t.Fits ws (pieces '.' name) := by
  rw [targetAt?] at h
  split at h
  · next function hfunction =>
    cases h
    exact hfunction
  · split at h
    · cases h
    · next first rest hpieces =>
      obtain ⟨found, hfound, rfl⟩ := Option.map_eq_some_iff.mp h
      obtain ⟨top, htop, hbelow⟩ := Option.bind_eq_some_iff.mp hfound
      obtain ⟨scope, -, hchild⟩ := List.exists_of_findSome?_eq_some htop
      obtain ⟨hlt, -, hn, -⟩ := hs.child hchild
      rw [hpieces]
      exact hs.childAt?_fits rest hlt (List.mem_singleton.mpr hn) hbelow

end Fits

/-- No name in the workspace holds a line feed, but for names of files. -/
structure Workspace.Plain (ws : Workspace) : Prop where
  name : ∀ id, ws.isFile id = false → OneLine (ws.component id).name
  kind : ∀ id, (ws.kind id).OneLine
  target : ∀ id o t, ws.kind id = .operation o → o.target? = some t → t.OneLine ws
  param : ∀ id s, ws.kind id = .function s → ∀ p ∈ s.params, p < ws.size ∧ ws.isFile p = false
  library : ∀ id f, (ws.component id).file? = some f → ∀ l ∈ f.libraries, OneLine l
  forest : ∀ i, (ws.forest.get i).OneLine

/-- A kind that a component can be made with in a plain workspace. -/
structure Kind.New (k : Kind) : Prop where
  one : k.OneLine
  unsettled : k.Unsettled
  library : ∀ f, k.file? = some f → f.libraries = []

/-- A change that adds no line feed to a name. -/
def Change.Plain (ws : Workspace) : Change → Prop
  | .root name kind | .below _ name kind _ =>
    (kind.isFile = false → OneLine name) ∧ kind.New
  | .edit _ (.file (.library l)) => OneLine l
  | .edit _ (.resolved target?) => ∀ t, target? = some t → t.OneLine ws
  | .edit _ (.param p) => p < ws.size ∧ ws.isFile p = false
  | .plant i | .plantBelow _ i => i.OneLine
  | .rename _ name => OneLine name
  | _ => True

theorem Target.OneLine.extended (h : t.OneLine ws) (hext : ws.Extends ws') : t.OneLine ws' := by
  cases t with
  | component id => exact ⟨lt_of_lt_of_le h.1 hext.size_le, hext.name h.1 ▸ h.2⟩
  | native f => exact h

namespace Change

variable {ws : Workspace}

/-- An operation after a change: as before, or new, or with another target. -/
theorem operation_apply {o : Operation} (c : Change) (legal : c.Legal ws)
    (h : (c.apply ws).kind id = .operation o) : ws.kind id = .operation o ∨ c.newKind? = some (.operation o) ∨
      ∃ t? o', c = .edit id (.resolved t?) ∧ ws.kind id = .operation o' ∧ o = { o' with target? := t? } := by
  rcases c.kind_apply legal id with heq | ⟨-, heq⟩ | ⟨_, _, -, -, heq⟩ | ⟨t?, o', hc, ho, heq⟩ |
    ⟨_, _, -, -, heq⟩
  · exact .inl (heq.symm.trans h)
  · exact .inr (.inl (heq.trans (congrArg some h)))
  · exact Kind.noConfusion (heq.symm.trans h)
  · exact .inr (.inr ⟨t?, o', hc, ho, Kind.operation.inj (h.symm.trans heq)⟩)
  · exact Kind.noConfusion (heq.symm.trans h)

theorem Plain.new {c : Change} (h : c.Plain ws) {kind : Kind} (hkind : c.newKind? = some kind)
    : kind.New := by
  cases c with
  | root | below => exact Option.some.inj hkind ▸ h.2
  | _ => cases hkind

end Change

theorem FileEdit.mem_libraries {g : FileEdit} {l : String}
    (h : l ∈ (g.apply f).libraries) : l ∈ f.libraries ∨ g = .library l := by
  cases g with
  | library name =>
    simp only [apply] at h
    split at h
    · exact .inl h
    · rcases List.mem_append.mp h with h | h
      · exact .inl h
      · rw [List.mem_singleton.mp h]
        exact .inr rfl
  | dependency other =>
    simp only [apply] at h
    split at h <;> exact .inl h
  | _ => exact .inl h

/-- Instructions after a change that adds no line feed. -/
theorem Workspace.Plain.forest_apply (h : ws.Plain) (c : Change) (legal : c.Legal ws) (hc : c.Plain ws)
    (i : InstructionId) :
    ((c.apply ws).forest.get i).OneLine := by
  have hsame : ∀ {f : Forest}, f = ws.forest → (f.get i).OneLine := fun hf => hf ▸ h.forest i
  cases c with
  | plant j =>
    rw [Change.apply, get_add]
    split
    · exact hc
    · exact h.forest i
  | plantBelow parent j =>
    simp only [Change.apply, Forest.addChild, get_modify_eq, get_add]
    split
    · split
      · exact ⟨hc.name, hc.type⟩
      · exact ⟨(h.forest i).name, (h.forest i).type⟩
    · split
      · exact hc
      · exact h.forest i
  | rename id name =>
    rw [Change.apply, Forest.setName, get_modify_eq]
    split
    · exact ⟨hc, (h.forest i).type⟩
    · exact h.forest i
  | stamp id line =>
    rw [Change.apply, Forest.stamp, get_modify_eq]
    split
    · exact ⟨(h.forest i).name, (h.forest i).type⟩
    · exact h.forest i
  | _ => exact hsame rfl

/-- **A change that adds no line feed keeps a workspace plain.** -/
theorem Workspace.Plain.apply (h : ws.Plain) (c : Change) (legal : c.Legal ws) (hc : c.Plain ws) :
    (c.apply ws).Plain := by
  have hext := c.extends_apply legal
  constructor
  case name =>
    intro id hid
    rw [isFile, Workspace.kind] at hid
    rcases c.component_apply legal id with heq | ⟨-, _, _, rfl, heq⟩ | ⟨-, _, _, _, _, rfl, heq⟩ |
      ⟨-, _, _, _, -, heq⟩ | ⟨-, e, rfl, heq⟩ <;> rw [heq] at hid ⊢
    · exact h.name id hid
    · exact hc.1 hid
    · exact hc.1 hid
    · exact h.name id hid
    · rw [Edit.apply_isFile] at hid
      rw [Edit.apply_name]
      exact h.name id hid
  case kind =>
    intro id
    have hold := h.kind id
    rcases c.kind_apply legal id with heq | ⟨-, heq⟩ | ⟨_, s, -, hs, heq⟩ | ⟨_, o, -, ho, heq⟩ | ⟨_, _, -, -, heq⟩
    · rwa [heq]
    · exact (hc.new heq).one
    · rw [hs] at hold
      rwa [heq]
    · rw [ho] at hold
      rwa [heq]
    · rw [heq]
      exact trivial
  case target =>
    intro id o t hk ht
    rcases c.operation_apply legal hk with hk | hnew | ⟨t?, o', rfl, -, rfl⟩
    · exact (h.target id o t hk ht).extended hext
    · rw [show o.target? = none from (hc.new hnew).unsettled] at ht
      cases ht
    · exact (hc t ht).extended hext
  case param =>
    have hkeep : ∀ {p : ComponentId}, p < ws.size ∧ ws.isFile p = false →
        p < (c.apply ws).size ∧ (c.apply ws).isFile p = false := fun hp =>
      ⟨lt_of_lt_of_le hp.1 hext.size_le, (hext.isFile hp.1).trans hp.2⟩
    intro id s hk p hp
    rcases c.kind_apply legal id with heq | ⟨-, heq⟩ | ⟨q, s', rfl, hold, heq⟩ | ⟨_, _, -, -, heq⟩ |
      ⟨_, _, -, -, heq⟩
    · exact hkeep (h.param id s (heq ▸ hk) p hp)
    · rw [hk] at heq
      rw [show s.params = [] from (hc.new heq).unsettled] at hp
      cases hp
    · cases hk.symm.trans heq
      rcases List.mem_append.mp hp with hp | hp
      · exact hkeep (h.param id s' hold p hp)
      · rw [List.mem_singleton.mp hp]
        exact hkeep hc
    · cases hk.symm.trans heq
    · cases hk.symm.trans heq
  case library =>
    intro id f hf l hl
    rcases c.file?_apply legal id with heq | ⟨-, kind, hnew, heq⟩ | ⟨-, g, rfl, heq⟩
    · exact h.library id f (heq ▸ hf) l hl
    · rw [(hc.new hnew).library f (heq ▸ hf)] at hl
      cases hl
    · rw [heq] at hf
      obtain ⟨f', hf', rfl⟩ := Option.map_eq_some_iff.mp hf
      rcases FileEdit.mem_libraries hl with hl | rfl
      · exact h.library id f' hf' l hl
      · exact hc
  case forest =>
    exact h.forest_apply c legal hc

theorem Loads.plain {S : InstructionId → Prop} (h : Loads S ws c) : c.Plain ws := by
  cases h with
  | library _ one | plant one | plantBelow _ one => exact one
  | declare _ _ _ name_one kind_one unsettled noFile =>
    refine ⟨fun _ => name_one, kind_one, unsettled, fun f hf => ?_⟩
    rw [Kind.isFile, hf] at noFile
    cases noFile
  | param _ there noFile => exact ⟨there, noFile⟩
  | _ => exact trivial

/-! ## The changes that settling makes -/

/-- The change adds a component. -/
def Change.Adds : Change → Prop
  | .root .. | .below .. => True
  | _ => False

/-- The component is there, and the file around it counts as settled. -/
structure Workspace.InSettled (ws : Workspace) (id : ComponentId) : Prop where
  lt : id < ws.size
  settled : ∀ file f, ws.fileOf? id = some file → (ws.component file).file? = some f →
    f.settled = true

/-- The changes that settling makes. Where `F` holds they add no line feed, and where `L` holds
nothing is loaded. Only files among `G` come to count as settled. -/
inductive Settles (F L : Prop) (G : ComponentId → Prop) (ws : Workspace) : Change → Prop
  | load {c : Change} (mem : Loads (fun _ => True) ws c) (unloaded : ¬L) : Settles F L G ws c
  | library (file : ComponentId) {name : String} (one : F → OneLine name) :
      Settles F L G ws (.edit file (.file (.library name)))
  | referenced (id : ComponentId) : Settles F L G ws (.edit id .referenced)
  | dependency {file other : ComponentId} (isFile : ws.isFile other = true)
      (settled : ∀ f, (ws.component file).file? = some f → f.settled = true) :
      Settles F L G ws (.edit file (.file (.dependency other)))
  | settled {file : ComponentId} (mem : G file) : Settles F L G ws (.edit file (.file .settled))
  | resolved (id : ComponentId) {target? : Option Target}
      (one : F → ∀ t, target? = some t → t.OneLine ws) (right : L → target? = ws.actionTarget? id)
      (back : ws.action? id = some .giveBack → target? = none) (settled : ws.InSettled id) :
      Settles F L G ws (.edit id (.resolved target?))
  | rename {id : InstructionId} {name : String} (one : F → OneLine name)
      (literal : (reading (ws.forest.get id).name).isValue = true)
      (again : (reading name).isValue = true) : Settles F L G ws (.rename id name)

section Settles

variable {F L : Prop} {G : ComponentId → Prop} {ws : Workspace} {c : Change}

theorem Settles.plain (h : Settles F L G ws c) (hF : F) :
    c.Plain ws := by
  cases h with
  | load mem => exact mem.plain
  | library _ one | resolved _ one | rename one => exact one hF
  | _ => exact trivial

theorem Settles.not_adds (h : Settles F L G ws c) (hL : L) : ¬c.Adds := by
  cases h with
  | load _ unloaded => exact absurd hL unloaded
  | _ => exact id

/-- What is known where nothing is loaded can be left out, and more files can be settled. -/
theorem Settles.relax {L' : Prop} {G' : ComponentId → Prop} (hL : L' → L) (hG : ∀ file, G file → G' file)
    (h : Settles F L G ws c) : Settles F L' G' ws c := by
  cases h with
  | load mem unloaded => exact .load mem fun h => unloaded (hL h)
  | library file one => exact .library file one
  | referenced id => exact .referenced id
  | dependency isFile settled => exact .dependency isFile settled
  | settled mem => exact .settled (hG _ mem)
  | resolved id one right back settled => exact .resolved id one (fun h => right (hL h)) back settled
  | rename one literal again => exact .rename one literal again

theorem Settles.quiet (h : Settles F L G ws c) (hL : L) :
    c.Quiet ws := by
  cases h with
  | load _ unloaded => exact absurd hL unloaded
  | rename _ literal again => exact ⟨literal, again⟩
  | _ => exact trivial

end Settles

/-- Only a new file can be one that is not loaded. -/
theorem Workspace.Loaded.apply (h : ws.Loaded) (legal : c.Legal ws) (hc : ¬c.Adds) : (c.apply ws).Loaded := by
  intro id f hf
  rcases c.file?_apply legal id with heq | ⟨-, kind, hnew, -⟩ | ⟨-, g, -, heq⟩
  · exact h id f (heq ▸ hf)
  · cases c with
    | root | below => exact absurd trivial hc
    | _ => cases hnew
  · rw [heq] at hf
    obtain ⟨f', hf', rfl⟩ := Option.map_eq_some_iff.mp hf
    exact (g.loaded_apply f').mpr (.inl (h id f' hf'))

/-- What is known of a workspace while files are settled: where `F` holds it is plain, and where `L`
holds all files are loaded. -/
structure Workspace.Ready (F L : Prop) (ws : Workspace) : Prop where
  plain : F → ws.Plain
  loaded : L → ws.Loaded

/-- **Settling keeps a workspace plain, and loaded if it is.** -/
theorem Reach.ready {F L : Prop} (h : Reach (Settles F L G) ws ws') (hs : ws.Sound) (hr : ws.Ready F L) :
    ws'.Ready F L where
  plain hF := h.invariant hs (hr.plain hF) fun _ c _ legal hc hplain =>
    hplain.apply c legal (hc.plain hF)
  loaded hL := h.invariant hs (hr.loaded hL) fun _ _ _ legal hc hloaded =>
    hloaded.apply legal (hc.not_adds hL)

theorem Reach.alike_of_settles {F L : Prop} (h : Reach (Settles F L G) ws ws') (hs : ws.Sound) (hL : L) :
    ws.Alike ws' :=
  h.alike hs fun _ _ hc => hc.quiet hL

theorem Reach.action?_eq (h : Reach P ws ws') (hs : ws.Sound) (hid : id < ws.size) :
    ws'.action? id = ws.action? id := by
  have hkept := h.invariant (I := fun ws' => id < ws'.size ∧ ws'.action? id = ws.action? id) hs
    ⟨hid, rfl⟩ ?_
  · exact hkept.2
  · rintro next c _ legal - ⟨hlt, heq⟩
    refine ⟨lt_of_lt_of_le hlt (c.extends_apply legal).size_le, Eq.trans ?_ heq⟩
    rw [action?, action?]
    rcases c.kind_apply legal id with hk | ⟨hnew, -⟩ | ⟨_, _, -, hold, hk⟩ | ⟨_, _, -, hold, hk⟩ |
      ⟨_, _, -, hold, hk⟩
    · rw [hk]
    · exact absurd hnew (ne_of_lt hlt)
    · rw [hk, hold]
    · rw [hk, hold]
    · rw [hk, hold]

/-! ## Around what is settled -/

theorem Reach.settled (h : Reach P ws ws') (hs : ws.Sound) {file : ComponentId} (hlt : file < ws.size)
    (hfile : ∀ f, (ws.component file).file? = some f → f.settled = true)
    (hf : (ws'.component file).file? = some f) : f.settled = true := by
  have hkept := h.invariant (I := fun ws' => file < ws'.size ∧
    ∀ f, (ws'.component file).file? = some f → f.settled = true) hs ⟨hlt, hfile⟩ ?_
  · exact hkept.2 f hf
  · rintro next c _ legal - ⟨hlt, hfile⟩
    refine ⟨lt_of_lt_of_le hlt (c.extends_apply legal).size_le, fun f hf => ?_⟩
    rcases c.file?_apply legal file with heq | ⟨hnew, -⟩ | ⟨-, g, -, heq⟩
    · exact hfile f (heq ▸ hf)
    · exact absurd hnew (ne_of_lt hlt)
    · rw [heq] at hf
      obtain ⟨f', hf', rfl⟩ := Option.map_eq_some_iff.mp hf
      exact g.settled_apply (hfile f' hf')

theorem Workspace.InSettled.extended (h : ws.InSettled id) (hreach : Reach P ws ws') (hs : ws.Sound) :
    ws'.InSettled id where
  lt := hreach.lt h.lt
  settled file f hfile hf := by
    rw [hreach.extension.fileOf?_eq hs (hreach.sound hs) h.lt] at hfile
    exact hreach.settled hs (lt_size_of_isFile (isFile_of_fileOf? hfile))
      (fun f hf => h.settled file f hfile hf) hf

/-- What is declared inside is settled too, unless it is a file. -/
theorem Workspace.InSettled.child {child : ComponentId} (h : ws.InSettled id) (hs : ws.Sound)
    (hchild : child ∈ (ws.component id).childIds) (hno : ws.isFile child = false) :
    ws.InSettled child where
  lt := (hs.of_mem_childIds hchild).1
  settled file f hfile hf := h.settled file f (hs.fileOf?_child hchild hno ▸ hfile) hf

/-- A file that is just marked as settled is. -/
theorem Workspace.inSettled_self {file : SourceFile} (hs : ws.Sound)
    (hfile : (ws.component id).file? = some file) :
    ((Change.edit id (.file .settled)).apply ws).InSettled id := by
  have hisFile := isFile_of_file? hfile
  have hlt := lt_size_of_isFile hisFile
  have hext : ws.Extends _ := (Change.edit id (.file .settled)).extends_apply trivial
  have hs' := hs.apply (.edit id (.file .settled)) trivial
  refine ⟨lt_of_lt_of_le hlt hext.size_le, fun other f hother hf => ?_⟩
  rw [hs'.fileOf?_self ((hext.isFile hlt).trans hisFile)] at hother
  cases hother
  simp only [Change.apply, component_modify_eq, hlt, and_self, if_true, Edit.apply, Component.file?,
    Kind.file?_mapFile] at hf
  obtain ⟨_, -, rfl⟩ := Option.map_eq_some_iff.mp hf
  rfl

/-! ## Literals -/

theorem Literal.oneLine_escape (s : String) : OneLine (escape s) := by
  refine oneLine_ofList fun hmem => ?_
  obtain ⟨c, -, hc⟩ := List.mem_flatMap.mp hmem
  unfold escapeChar at hc
  split at hc
  · exact absurd hc (by decide)
  · exact absurd hc (by decide)
  · exact absurd hc (by decide)
  · exact absurd hc (by decide)
  · next hn _ => exact hn (List.mem_singleton.mp hc).symm

theorem Literal.oneLine_wholePart (h : OneLine s) : OneLine (wholePart s) := by
  have htrail : '\n' ∉ dropTrailing 'f' s.toList := by
    unfold dropTrailing
    split
    · exact fun hmem => h (List.dropLast_subset _ hmem)
    · exact h
  have hhead : '\n' ∉ (splitAt '.' (dropTrailing 'f' s.toList)).headD [] := by
    intro hmem
    cases hs : splitAt '.' (dropTrailing 'f' s.toList) with
    | nil =>
      rw [hs] at hmem
      cases hmem
    | cons first rest =>
      rw [hs] at hmem
      exact htrail (mem_of_mem_splitAt (by rw [hs]; exact .head _) hmem)
  unfold wholePart
  split
  · decide
  · decide
  · exact oneLine_ofList hhead

theorem Literal.oneLine_recast (h : OneLine s) (source target : Option LiteralKind) :
    OneLine (recast s source target) := by
  unfold recast
  split
  · exact h
  · exact (OneLine.append (by decide) (oneLine_escape s)).append (by decide)
  · exact h.append (by decide)
  · split <;> decide
  · exact oneLine_wholePart h
  · split <;> decide
  · split <;> decide
  · split <;> decide
  · exact h

/-! ## Runs -/

theorem notesLibraries_settles (F L : Prop) (G : ComponentId → Prop) :
    Build.NotesLibraries (Settles F L G) F :=
  fun _ file _ h => .library file h

namespace Build

variable {F L : Prop} {G : ComponentId → Prop} {ws : Workspace}

variable {P : Change.Class} {id scope : ComponentId} {source : InstructionId} {pos : Nat}
  {expected? : Option String} {name request subject text type : String}

theorem makes_loadOnce (hr : ws.Ready F L) (hid : id < ws.size) :
    Makes (Settles F L G) (load id) ws := by
  by_cases hL : L
  · intro _
    rw [load_of_loaded (hr.loaded hL)]
    exact ⟨.refl _ ws, trivial⟩
  · exact (makes_load hid).mono fun _ _ h => .load h hL

theorem loadsFrom_settles (hs : ws.Sound) (hr : ws.Ready F L) :
    LoadsFrom (Settles F L G) Build.load ws :=
  fun _ hreach _ hid => makes_loadOnce (hreach.ready hs hr) hid

theorem runs_componentNamed (hr : ws.Ready F L) (hname : F → OneLine name) :
    Runs (Settles F L G) (componentNamed scope name) ws fun id ws' =>
      id < ws'.size ∧ (ws'.component id).name ∈ pieces '.' name :=
  fun hs => runs_componentNamedWith scope (loadsFrom_settles hs hr) (notesLibraries_settles F L G)
    hname hs

theorem runs_targetNamed (hr : ws.Ready F L) (hname : F → OneLine name) :
    Runs (Settles F L G) (targetNamed scope name) ws fun t ws' => t.Fits ws' (pieces '.' name) :=
  fun hs => runs_targetWith scope (loadsFrom_settles hs hr) (notesLibraries_settles F L G) hname hs

theorem runs_languageFor :
    Runs P (languageFor scope) ws fun language ws' =>
      ws' = ws ∧ language = ws.languageAt scope := by
  refine .get fun _ => .bind Runs.needReader ?_
  rintro _ _ - - rfl
  exact .pure ⟨rfl, rfl⟩

theorem runs_discard_languageFor :
    Runs P (discard (languageFor scope)) ws fun _ ws' => ws' = ws := by
  refine .bind runs_languageFor ?_
  rintro _ _ - - ⟨rfl, -⟩
  exact .pure rfl

theorem makes_meaning (hr : ws.Ready F L) (language : Language) (scope : ComponentId)
    (hname : F → OneLine name) : Makes (Settles F L G) (meaning language scope name) ws := by
  unfold meaning
  split
  · exact .pure trivial
  · exact .bind (runs_componentNamed hr hname) fun _ _ _ _ _ => .pure trivial

theorem makes_typeNamed (hr : ws.Ready F L) (scope : ComponentId)
    (hname : F → OneLine name) : Makes (Settles F L G) (typeNamed scope name) ws := by
  refine .bind runs_languageFor ?_
  rintro language _ - - ⟨rfl, -⟩
  exact makes_meaning hr language scope hname

theorem runs_declaredType? (id : ComponentId) :
    Runs P (declaredType? id) ws fun type? ws' => ws' = ws ∧
      ∀ type, type? = some type → ∃ i, (ws.forest.get i).type? = some type := by
  refine .component fun _ => ?_
  split
  · next source _ =>
    refine .instruction fun _ => .pure ⟨rfl, fun type htype => ⟨source, htype⟩⟩
  · exact .pure ⟨rfl, by rintro _ ⟨⟩⟩

theorem makes_fitName (hr : ws.Ready F L) (language : Language) (scope : ComponentId)
    (hname : F → OneLine name) (hrequest : F → OneLine request) :
    Runs (Settles F L G) (fitName language scope name request) ws fun r _ => r = .asIs := by
  intro hs
  refine Runs.bind (runs_componentNamed hr hname) (fun target ws' hs' hreach _ => ?_) hs
  refine Runs.bind (runs_declaredType? target) ?_
  rintro type? _ - - ⟨rfl, htype⟩
  cases type? with
  | none => exact .throw _
  | some declared =>
    obtain ⟨i, hi⟩ := htype declared rfl
    have hdeclared : F → OneLine declared := fun h =>
      (((hreach.ready hs hr).plain h).forest i).type declared hi
    have hready := hreach.ready hs hr
    refine .bind (makes_meaning hready language target hdeclared) fun _ _ _ hmore _ => ?_
    refine .bind (makes_meaning (hmore.ready hs' hready) language scope hrequest)
      fun _ _ _ _ _ => ?_
    split
    · exact .pure rfl
    · exact .throw _

theorem runs_fitLiteral (language : Language) (kind : LiteralKind) (request : String)
    (htext : F → OneLine text) :
    Runs P (fitLiteral language text kind request) ws fun r ws' =>
      ws' = ws ∧ ∀ new, r = .replace new → (F → OneLine new) ∧
        ∃ required, new = recast text (some kind) (some required) := by
  unfold fitLiteral
  split
  · exact .throw _
  · next required _ =>
    split
    · exact .pure ⟨rfl, by rintro _ ⟨⟩⟩
    · refine .pure ⟨rfl, ?_⟩
      rintro _ ⟨⟩
      exact ⟨fun h => oneLine_recast (htext h) _ _, required, rfl⟩

/-- What fits a type by being written anew is a literal, stays one, and stays on one line. -/
theorem runs_fit (hr : ws.Ready F L) (scope : ComponentId) (hsubject : F → OneLine subject)
    (hrequest : F → OneLine request) :
    Runs (Settles F L G) (fit scope subject request) ws fun r ws' =>
      ∀ new, r = .replace new → (F → OneLine new) ∧ ws' = ws ∧
        (reading subject).isValue = true ∧ (reading new).isValue = true := by
  refine .bind runs_languageFor ?_
  rintro language _ - - ⟨rfl, -⟩
  split
  · exact .throw _
  · refine (makes_fitName hr language scope hsubject hrequest).weaken ?_
    rintro _ _ - - rfl _ ⟨⟩
  · next kind hkind =>
    refine (runs_fitLiteral language kind request hsubject).weaken ?_
    rintro r _ - - ⟨rfl, hnew⟩ new hr
    obtain ⟨hone, required, rfl⟩ := hnew new hr
    exact ⟨hone, rfl, by rw [hkind]; rfl, isValue_recast hkind required⟩

theorem oneLine_childName? (hr : ws.Ready F L) (h : ws.forest.childName? source pos = some name)
    (f : F) : OneLine name := by
  obtain ⟨i, hi, rfl⟩ := Option.map_eq_some_iff.mp h
  obtain ⟨child, -, rfl⟩ := Option.map_eq_some_iff.mp hi
  exact ((hr.plain f).forest child).name

theorem makes_setChildName (hsubject : ws.forest.childName? source pos = some subject)
    (htext : F → OneLine text) (literal : (reading subject).isValue = true)
    (again : (reading text).isValue = true) :
    Makes (Settles F L G) (updateForest fun f => f.setChildName source pos text) ws := by
  intro _
  have hrun : updateForest (fun f => f.setChildName source pos text) ws
      = .ok () { ws with forest := ws.forest.setChildName source pos text } := rfl
  obtain ⟨i, hi, rfl⟩ := Option.map_eq_some_iff.mp hsubject
  obtain ⟨child, hchild, rfl⟩ := Option.map_eq_some_iff.mp hi
  rw [hrun, Forest.setChildName, hchild]
  exact ⟨.single (.rename child text) trivial (.rename htext literal again), trivial⟩

theorem makes_fitChild (hr : ws.Ready F L) (scope : ComponentId) (hrequest : F → OneLine request)
    (source : InstructionId) (pos : Nat) :
    Makes (Settles F L G) (fitChild scope request source pos) ws := by
  refine .get fun _ => ?_
  split
  · exact .pure trivial
  · next subject hsubject =>
    refine .bind (runs_fit hr scope (oneLine_childName? hr hsubject) hrequest) ?_
    intro r ws' _ _ hr
    cases r with
    | asIs => exact .pure trivial
    | replace text =>
      obtain ⟨hone, rfl, literal, again⟩ := hr text rfl
      exact makes_setChildName hsubject hone literal again

theorem makes_noteDependency (hb : ws.InSettled scope) (target : ComponentId) :
    Makes (Settles F L G) (noteDependency scope target) ws := by
  refine .get fun _ => ?_
  split
  · next here there hhere hthere =>
    split
    · exact .pure trivial
    · exact Makes.editFile (.dependency there)
        (.dependency (List.find?_some hthere) (hb.settled here · hhere)) rfl
  · exact .pure trivial

theorem makes_markReferenced (id : ComponentId) : Makes (Settles F L G) (markReferenced id) ws :=
  Makes.edit .referenced trivial (.referenced id) rfl

theorem makes_settleType (hr : ws.Ready F L) (hb : ws.InSettled scope)
    (htype : F → OneLine type) : Makes (Settles F L G) (settleType scope type) ws := by
  refine .of_sound fun hs => .bind runs_languageFor ?_
  rintro language _ - - ⟨rfl, -⟩
  split
  · exact .pure trivial
  · exact .bind (runs_componentNamed hr htype) fun target _ _ hreach _ =>
      makes_noteDependency (hb.extended hreach hs) target

theorem makes_fitValue (hr : ws.Ready F L) (scope : ComponentId) (source : InstructionId) (pos : Nat)
    (hexpected : ∀ expected, expected? = some expected → F → OneLine expected) :
    Makes (Settles F L G)
      (match expected? with
        | some expected => fitChild scope expected source pos
        | none => pure ()) ws := by
  cases expected? with
  | none => exact .pure trivial
  | some expected => exact makes_fitChild hr scope (hexpected expected rfl) source pos

theorem makes_settleValue (hr : ws.Ready F L) (hb : ws.InSettled scope) (source : InstructionId) (pos : Nat)
    (hexpected : ∀ expected, expected? = some expected → F → OneLine expected) :
    Makes (Settles F L G) (settleValue scope source pos expected?) ws := by
  refine .get fun hs => ?_
  split
  · exact .pure trivial
  · next value hvalue =>
    refine .bind runs_discard_languageFor.makes fun _ ws₁ _ hreach₁ _ => ?_
    refine .ite (fun _ => ?_) fun _ => makes_fitValue (hreach₁.ready hs hr) scope source pos hexpected
    · refine .bind (runs_componentNamed (hreach₁.ready hs hr) (oneLine_childName? hr hvalue))
        fun target ws₂ _ hreach₂ _ => ?_
      refine .bind (makes_markReferenced target) fun _ ws₃ _ hreach₃ _ => ?_
      have hreach := (hreach₁.trans hreach₂).trans hreach₃
      refine .bind (makes_noteDependency (hb.extended hreach hs) target)
        fun _ ws₄ _ hreach₄ _ => ?_
      exact makes_fitValue ((hreach.trans hreach₄).ready hs hr) scope source pos hexpected

theorem oneLine_memberType? (hp : ws.Plain) (h : (ws.kind id).memberType? = some type) : OneLine type := by
  have hk := hp.kind id
  unfold Kind.memberType? at h
  split at h
  · next m hm =>
    cases h
    rw [hm] at hk
    exact hk
  · cases h

theorem oneLine_result? (hp : ws.Plain) (h : (ws.kind id).result? = some type) : OneLine type := by
  have hk := hp.kind id
  unfold Kind.result? at h
  split at h
  · next s hs =>
    rw [hs] at hk
    exact hk type h
  · cases h

theorem oneLine_parameterTypes (hp : ws.Plain) (h : type ∈ ws.parameterTypes id) : OneLine type := by
  obtain ⟨param, -, hparam⟩ := List.mem_filterMap.mp h
  exact oneLine_memberType? hp hparam

/-- The target of a call is spelled on one line, and is what the name leads to. -/
theorem runs_settleCall (hr : ws.Ready F L) (hb : ws.InSettled id) (source : InstructionId) {callee : String}
    (hcallee : F → OneLine callee) :
    Runs (Settles F L G) (settleCall id source callee) ws fun t ws' =>
      (F → t.OneLine ws') ∧ (L → ws.targetAt? id callee = some t) := by
  intro hs
  -- the arguments, once the types of the parameters are known
  have hrest : ∀ (target : Target) (params : List String) (ws₁ : Workspace),
      Reach (Settles F L G) ws ws₁ → (F → target.OneLine ws₁) →
      (L → ws.targetAt? id callee = some target) → (F → ∀ type ∈ params, OneLine type) →
      Runs (Settles F L G)
        (do
          let i ← instruction source
          (List.range i.children.length).forM fun pos => settleValue id source pos params[pos]?
          return target) ws₁ fun t ws' =>
            (F → t.OneLine ws') ∧ (L → ws.targetAt? id callee = some t) := by
    intro target params ws₁ hreach htarget hleads hparams
    refine .instruction fun hs₁ => ?_
    refine .bind (Makes.forM fun pos _ ws₂ _ hreach₂ => ?_) fun _ ws' _ hreach' _ => ?_
    · have hreach := hreach.trans hreach₂
      refine makes_settleValue (hreach.ready hs hr) (hb.extended hreach hs) source pos ?_
      exact fun expected hexpected h => hparams h expected (List.mem_of_getElem? hexpected)
    · exact Runs.pure ⟨fun h => (htarget h).extended hreach'.extension, hleads⟩
  refine Runs.bind (runs_targetNamed hr hcallee).given ?_ hs
  rintro target ws₁ hs₁ hreach₁ ⟨hrun, hfits⟩
  have htarget : F → target.OneLine ws₁ := fun h => hfits.oneLine (hcallee h)
  have hleads : L → ws.targetAt? id callee = some target := fun h =>
    (targetNamed_of_loaded (hr.loaded h) hrun).1
  cases target with
  | native f => exact hrest (.native f) [] ws₁ hreach₁ htarget hleads (by simp)
  | component function =>
    refine .bind (makes_markReferenced function) fun _ ws₂ _ hreach₂ _ => ?_
    refine .bind (makes_noteDependency (hb.extended (hreach₁.trans hreach₂) hs) function)
      fun _ ws₃ _ hreach₃ _ => ?_
    have hreach := (hreach₁.trans hreach₂).trans hreach₃
    refine .get fun _ => hrest _ _ ws₃ hreach
      (fun h => (htarget h).extended (hreach₂.trans hreach₃).extension) hleads ?_
    intro h type htype
    split at htype
    · exact oneLine_parameterTypes ((hreach.ready hs hr).plain h) htype
    · cases htype

theorem runs_settleAssign (hr : ws.Ready F L) (hb : ws.InSettled id) (source : InstructionId)
    (hname : F → OneLine name) :
    Runs (Settles F L G) (settleAssign id source name) ws fun t ws' =>
      (F → t.OneLine ws') ∧ (L → ws.targetAt? id name = some t) := by
  intro hs
  refine Runs.bind (runs_componentNamed hr hname).given ?_ hs
  rintro member ws₁ hs₁ hreach₁ ⟨hrun, hmember⟩
  have htarget : F → (Target.component member).OneLine ws₁ := fun h =>
    ⟨hmember.1, oneLine_of_mem_pieces (hname h) hmember.2⟩
  have hleads : L → ws.targetAt? id name = some (.component member) := fun h =>
    (componentNamed_of_loaded (hr.loaded h) hrun).1
  refine Runs.bind (makes_markReferenced member) fun _ ws₂ _ hreach₂ _ => ?_
  refine Runs.bind (makes_noteDependency (hb.extended (hreach₁.trans hreach₂) hs) member)
    fun _ ws₃ _ hreach₃ _ => ?_
  have hreach := (hreach₁.trans hreach₂).trans hreach₃
  have hready := hreach.ready hs hr
  refine Runs.get fun _ => ?_
  refine Runs.bind (makes_settleValue hready (hb.extended hreach hs) source 0 fun type htype h =>
    oneLine_memberType? (hready.plain h) htype) fun _ ws' _ hreach' _ => ?_
  exact Runs.pure ⟨fun h => (htarget h).extended ((hreach₂.trans hreach₃).trans hreach').extension,
    hleads⟩

theorem makes_settleGiveBack (hr : ws.Ready F L) (hb : ws.InSettled id)
    (source : InstructionId) : Makes (Settles F L G) (settleGiveBack id source) ws := by
  refine .get fun _ => makes_settleValue hr hb source 0 fun type htype h => ?_
  have hresult := (Option.filter_eq_some_iff.mp htype).1
  obtain ⟨parent, -, hparent⟩ := Option.bind_eq_some_iff.mp hresult
  exact oneLine_result? (hr.plain h) hparent

theorem makes_settleOperation (hr : ws.Ready F L) (hb : ws.InSettled id) {o : Operation}
    (ho : F → Kind.OneLine (.operation o)) (hid : ws.kind id = .operation o) :
    Makes (Settles F L G) (settleOperation id o.action) ws := by
  refine .of_sound fun hs => ?_
  have haction : ws.action? id = some o.action := by rw [Workspace.action?, hid]
  have hdone : ∀ (ws' : Workspace) (target? : Option Target), Reach (Settles F L G) ws ws' →
      (F → ∀ t, target? = some t → t.OneLine ws') → (L → target? = ws.actionTarget? id) →
      (o.action = .giveBack → target? = none) →
      Makes (Settles F L G) (update id (Edit.resolved target?).apply) ws' := by
    intro ws' target? hreach hone hright hback
    refine Makes.edit (.resolved target?) trivial (.resolved id hone (fun hL => ?_) (fun hgive => ?_)
      (hb.extended hreach hs)) rfl
    · rw [hright hL, (hreach.alike_of_settles hs hL).actionTarget?_eq]
    · rw [hreach.action?_eq hs hb.lt, haction] at hgive
      exact hback (Option.some.inj hgive)
  refine .component fun _ => ?_
  split
  · exact .pure trivial
  · next source _ =>
    rw [actionTarget?, haction] at hdone
    cases haction : o.action with
    | call callee =>
      rw [haction] at hdone
      simp only [Kind.OneLine, haction] at ho
      refine .bind (runs_settleCall hr hb source ho) ?_
      rintro t ws' - hreach ⟨hone, hleads⟩
      exact hdone ws' (some t) hreach (by rintro h _ ⟨⟩; exact hone h) (fun h => (hleads h).symm)
        (by rintro ⟨⟩)
    | assign name =>
      rw [haction] at hdone
      simp only [Kind.OneLine, haction] at ho
      refine .bind (runs_settleAssign hr hb source ho) ?_
      rintro t ws' - hreach ⟨hone, hleads⟩
      exact hdone ws' (some t) hreach (by rintro h _ ⟨⟩; exact hone h) (fun h => (hleads h).symm)
        (by rintro ⟨⟩)
    | giveBack =>
      rw [haction] at hdone
      refine .bind (makes_settleGiveBack hr hb source) fun _ ws' _ hreach _ => ?_
      exact hdone ws' none hreach (by rintro _ _ ⟨⟩) (fun _ => rfl) fun _ => rfl

theorem makes_settleMember (hr : ws.Ready F L) (hb : ws.InSettled id) {m : Member}
    (hm : F → OneLine m.type) : Makes (Settles F L G) (settleMember id m) ws := by
  intro hs
  refine Runs.bind (makes_settleType hr hb hm) (fun _ ws' _ hreach _ => ?_) hs
  refine Runs.component fun _ => ?_
  split
  · exact makes_settleValue (hreach.ready hs hr) (hb.extended hreach hs) _ 0 (by rintro _ ⟨⟩; exact hm)
  · exact .pure trivial

theorem makes_settleOwn (hr : ws.Ready F L) (hb : ws.InSettled id) :
    Makes (Settles F L G) (settleOwn id (ws.kind id)) ws := by
  have hk : F → (ws.kind id).OneLine := fun h => (hr.plain h).kind id
  cases hkind : ws.kind id with
  | member m =>
    rw [hkind] at hk
    exact makes_settleMember hr hb hk
  | function s =>
    rw [hkind] at hk
    rw [settleOwn]
    split
    · next type htype => exact makes_settleType hr hb fun h => hk h type htype
    · exact .pure trivial
  | operation o =>
    rw [hkind] at hk
    exact makes_settleOperation hr hb hk hkind
  | _ => exact .pure trivial

/-- What settling a component and those below it does, by induction on the levels. -/
theorem makes_settleWithin (depth : Nat) (hr : ws.Ready F L) (hb : ws.isFile id = false → ws.InSettled id) :
    Makes (Settles F L G) (settleWithin depth id) ws := by
  induction depth generalizing ws id with
  | zero => exact .pure trivial
  | succ depth ih =>
    refine .component fun hs => ?_
    have hrest : ∀ kind, kind = ws.kind id → kind.isFile = false → Makes (Settles F L G)
        (do
          settleOwn id kind
          let c ← component id
          c.childIds.forM (settleWithin depth)) ws := by
      rintro _ rfl hno
      have hb := hb hno
      refine .bind (makes_settleOwn hr hb) fun _ ws₁ hs₁ hreach₁ _ => ?_
      refine .component fun _ => Makes.forM fun child hchild ws₂ hs₂ hreach₂ => ?_
      refine ih ((hreach₁.trans hreach₂).ready hs hr) fun hno => ?_
      have hlt := (hs₁.of_mem_childIds hchild).1
      rw [hreach₂.extension.isFile hlt] at hno
      exact ((hb.extended hreach₁ hs).child hs₁ hchild hno).extended hreach₂ hs₁
    split
    · exact .pure trivial
    · next hno =>
      refine hrest _ rfl ?_
      cases hkind : (ws.component id).kind with
      | file f => exact (hno f hkind).elim
      | _ => rfl

/-- **What settling does.** A file counts as settled behind that. -/
theorem runs_settle (hr : ws.Ready F L) (hid : id < ws.size) (hG : G id) :
    Runs (Settles F L G) (settle id) ws fun _ ws' =>
      ∀ f, (ws'.component id).file? = some f → f.settled = true := by
  intro hs
  refine Runs.bind (makes_loadOnce hr hid) (fun _ ws₁ hs₁ hreach₁ _ => ?_) hs
  refine Runs.component fun _ => ?_
  split
  · next hnone => exact .pure fun f hf => by cases hnone.symm.trans hf
  · next file hfile =>
    refine .ite (fun hsettled => .pure fun f hf => ?_) fun _ => ?_
    · cases hfile.symm.trans hf
      exact hsettled
    have hset : Runs (Settles F L G) (updateFile id fun f => { f with settled := true }) ws₁
        fun _ ws' => ws' = (Change.edit id (.file .settled)).apply ws₁ :=
      Runs.change (.edit id (.file .settled)) rfl trivial (.settled hG) rfl
    refine .bind hset ?_
    rintro _ ws₂ hs₂ hreach₂ rfl
    have hself := inSettled_self hs₁ hfile
    refine .get fun _ => (Makes.forM fun child hchild ws₃ _ hreach₃ => ?_).weaken
      fun _ ws' _ hreach₃ _ f => hreach₃.settled hs₂ hself.lt fun f hf => ?_
    · refine makes_settleWithin _ (((hreach₁.trans hreach₂).trans hreach₃).ready hs hr) fun hno => ?_
      have hlt := (hs₂.of_mem_childIds hchild).1
      rw [hreach₃.extension.isFile hlt] at hno
      exact (hself.child hs₂ hchild hno).extended hreach₃ hs₂
    · exact hself.settled id f (hs₂.fileOf?_self (isFile_of_file? hf)) hf

theorem makes_settle (hr : ws.Ready F L) (hid : id < ws.size) (hG : G id) :
    Makes (Settles F L G) (settle id) ws :=
  (runs_settle hr hid hG).makes

end Build

end LightHeaders
