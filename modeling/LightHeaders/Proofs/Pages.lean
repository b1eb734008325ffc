import LightHeaders.Proofs.Ancestors
import LightHeaders.Proofs.Locations
import LightHeaders.Proofs.Settling
import LightHeaders.Workspace.Headers

set_option autoImplicit false

/-! # The changes that writing headers makes

The **page** of a component is its text and whether it was written, and for a file its lines and
includes. To write the header of a file is to change pages of that file, and of files whose headers
are asked for on the way (`Emits`). A file's header is asked for once: its output path is decided
first, and no page of a file changes whose path was decided before.

So the pages of the files that are not decided yet are untouched (`Workspace.Clean`), as long as
text is forwarded to files only, and so are the pages of those that were decided before
(`Reach.page_eq`).
-/

namespace LightHeaders

open Workspace Component

/-! ## Decided files -/

/-- The output path of a file. -/
def Workspace.output? (ws : Workspace) (file : ComponentId) : Option Path :=
  (ws.component file).file?.bind SourceFile.output?

/-- The output path of the file is decided. -/
def Workspace.Decided (ws : Workspace) (file : ComponentId) : Prop := (ws.output? file).isSome = true

theorem Workspace.decided_of_output? {ws : Workspace} {id : ComponentId} {p : Path}
    (h : ws.output? id = some p) : ws.Decided id := by
  rw [Decided, h]
  rfl

theorem Workspace.not_decided_of_output? {ws : Workspace} {id : ComponentId} (h : ws.output? id = none) :
    ¬ws.Decided id := by
  rw [Decided, h]
  exact Bool.false_ne_true

theorem Workspace.not_decided {ws : Workspace} {id : ComponentId} {file : SourceFile}
    (hfile : (ws.component id).file? = some file) (houtput : file.output? = none) :
    ¬ws.Decided id :=
  not_decided_of_output? (by rw [output?, hfile, Option.bind_some, houtput])

/-- What a header leaves behind that is begun. -/
theorem Event.marked_begun_iff {ws : Workspace} {file : ComponentId} :
    (Event.begun file).Marked ws ↔ ws.Decided file := by
  rw [Event.Marked, Workspace.Decided, output?]
  cases (ws.component file).file? <;> rfl

/-- The component is in a file that is decided and not among `D`. -/
def Workspace.Open (D : ComponentId → Prop) (ws : Workspace) (id : ComponentId) : Prop :=
  ∃ file, ws.fileOf? id = some file ∧ ws.Decided file ∧ ¬D file

/-- Text is forwarded to files only. -/
def Workspace.ForwardsToFiles (ws : Workspace) : Prop :=
  ∀ id target, (ws.component id).forward? = some target → ws.isFile target = true

/-- Text is forwarded to the file around a component only, and not from files. -/
def Workspace.ForwardsHome (ws : Workspace) : Prop :=
  ∀ id target, (ws.component id).forward? = some target →
    ws.isFile id = false ∧ ws.fileOf? id = some target

theorem Workspace.forwardsHome_iff (ws : Workspace) : ws.ForwardsHome ↔ ∀ id < ws.size,
    (ws.component id).forward?.all (fun target =>
      ws.isFile id = false ∧ ws.fileOf? id = some target) = true := by
  simp only [ForwardsHome, Option.all_eq_true, decide_eq_true_eq]
  constructor
  · exact fun h id _ => h id
  · intro h id target hforward
    refine h id (Nat.lt_of_not_le fun hle => ?_) target hforward
    rw [ws.component_of_size_le hle] at hforward
    cases hforward

instance : DecidablePred Workspace.ForwardsHome := fun ws =>
  decidable_of_iff _ ws.forwardsHome_iff.symm

/-- Nothing was written in files that are not decided, nor outside files. Only a file itself can
have text before it is decided, since that is forgotten when it is. -/
def Workspace.Clean (ws : Workspace) : Prop :=
  ∀ id, (∀ file, ws.fileOf? id = some file → ¬ws.Decided file) →
    (ws.component id).written = false ∧ (ws.isFile id = false → (ws.component id).buffer = {})

/-- What holds while all writing is asked for by way of headers. -/
structure Workspace.Tidy (ws : Workspace) : Prop where
  forwards : ws.ForwardsToFiles
  clean : ws.Clean

namespace Workspace

variable {ws : Workspace} {D : ComponentId → Prop}

theorem Decided.isFile {file : ComponentId} (h : ws.Decided file) : ws.isFile file = true := by
  rw [Decided, output?] at h
  rw [Workspace.isFile, Kind.isFile, Workspace.kind]
  cases hf : (ws.component file).file? with
  | none =>
    rw [hf] at h
    cases h
  | some f =>
    rw [file?] at hf
    rw [hf]
    rfl

theorem output?_apply (c : Change) (legal : c.Legal ws) {file : ComponentId}
    (hlt : file < ws.size) : (c.apply ws).output? file = ws.output? file ∨
      ∃ p, c = .edit file (.file (.output p)) ∧ (ws.isFile file = true →
        (c.apply ws).output? file = some p) := by
  rw [output?, output?]
  rcases c.file?_apply legal file with heq | ⟨hsize, -⟩ | ⟨-, g, rfl, heq⟩
  · exact .inl (by rw [heq])
  · exact absurd hsize (ne_of_lt hlt)
  · rw [heq]
    cases hf : (ws.component file).file? with
    | none => exact .inl rfl
    | some f =>
      rcases g.output?_apply f with hsame | ⟨p, rfl, hp⟩
      · exact .inl hsame
      · exact .inr ⟨p, rfl, fun _ => hp⟩

theorem Decided.apply {file : ComponentId} (h : ws.Decided file) (c : Change)
    (legal : c.Legal ws) : (c.apply ws).Decided file := by
  have hlt := lt_size_of_isFile h.isFile
  rcases output?_apply c legal hlt with heq | ⟨p, -, heq⟩
  · rw [Decided, heq]
    exact h
  · rw [Decided, heq h.isFile]
    rfl

theorem Open.lt_size (hs : ws.Sound) {id : ComponentId} (h : ws.Open D id) : id < ws.size := by
  obtain ⟨file, hfile, -⟩ := h
  exact hs.lt_size_of_fileOf? hfile

theorem Open.file (hs : ws.Sound) {id file : ComponentId} (h : ws.Open D id)
    (hfile : ws.fileOf? id = some file) : ws.Open D file := by
  obtain ⟨file', hfile', hdecided, hD⟩ := h
  rw [hfile] at hfile'
  cases hfile'
  exact ⟨file, hs.fileOf?_self (isFile_of_fileOf? hfile), hdecided, hD⟩

theorem Open.of_fileOf? {id other : ComponentId} (h : ws.Open D id)
    (heq : ws.fileOf? other = ws.fileOf? id) : ws.Open D other := by
  obtain ⟨file, hfile, hrest⟩ := h
  exact ⟨file, heq.trans hfile, hrest⟩

end Workspace

namespace Reach

variable {P : Change.Class} {ws ws' : Workspace} {D : ComponentId → Prop}

theorem decided (h : Reach P ws ws') (hs : ws.Sound) {file : ComponentId} (hd : ws.Decided file) :
    ws'.Decided file :=
  h.invariant (I := fun ws => ws.Decided file) hs hd fun _ c _ legal _ hd => hd.apply c legal

theorem fileOf?_eq (h : Reach P ws ws') (hs : ws.Sound) {id : ComponentId} (hid : id < ws.size) :
    ws'.fileOf? id = ws.fileOf? id :=
  h.extension.fileOf?_eq hs (h.sound hs) hid

theorem open_of (h : Reach P ws ws') (hs : ws.Sound) {id : ComponentId} (ho : ws.Open D id) :
    ws'.Open D id := by
  have hlt := ho.lt_size hs
  obtain ⟨file, hfile, hdecided, hD⟩ := ho
  exact ⟨file, (h.fileOf?_eq hs hlt).trans hfile, h.decided hs hdecided, hD⟩

end Reach

/-- Nothing of a file that is not decided was written, and nothing inside it has text. -/
theorem Workspace.Clean.of_undecided {ws : Workspace} (h : ws.Clean) (hs : ws.Sound) {id file : ComponentId}
    (hundecided : ¬ws.Decided file) (hfile : ws.fileOf? id = some file) :
    (ws.component id).written = false ∧ (id ≠ file → (ws.component id).buffer = {}) := by
  obtain ⟨hwritten, hbuffer⟩ := h id fun other hother => by
    rw [hfile] at hother
    cases hother
    exact hundecided
  refine ⟨hwritten, fun hne => hbuffer ?_⟩
  cases hisFile : ws.isFile id with
  | false => rfl
  | true =>
    rw [hs.fileOf?_self hisFile] at hfile
    cases hfile
    exact absurd rfl hne

/-! ## Changes of a page -/

/-- What writing changes of a component: whether it was written, its text and, for a file, the
number of the next line and the paths that are included. -/
def Component.page (c : Component) : Bool × Buffer × Option (Nat × List String) :=
  (c.written, c.buffer, c.file?.map fun f => (f.nextLine, f.included))

/-- The edits of a page. -/
inductive Edit.IsPage : Edit → Prop
  | text (s : String) : IsPage (.text s)
  | written : IsPage .written
  | cleared : IsPage .cleared
  | lineEnd : IsPage (.file .lineEnd)
  | restart : IsPage (.file .restart)
  | included (path : String) : IsPage (.file (.included path))

theorem Edit.page_apply (e : Edit) (c : Component) : e.IsPage ∨ (e.apply c).page = c.page := by
  cases e with
  | text s => exact .inl (.text s)
  | written => exact .inl .written
  | cleared => exact .inl .cleared
  | param id =>
    right
    simp only [apply]
    split
    · next s hs => simp [page, file?, Kind.file?, hs]
    · rfl
  | resolved t? =>
    right
    simp only [apply]
    split
    · next o ho => simp [page, file?, Kind.file?, ho]
    · rfl
  | file g =>
    cases g with
    | lineEnd => exact .inl .lineEnd
    | restart => exact .inl .restart
    | included path => exact .inl (.included path)
    | library | dependency =>
      right
      simp only [apply, page, file?, Kind.file?_mapFile, Option.map_map]
      congr 3
      funext f
      simp only [Function.comp, FileEdit.apply]
      split <;> rfl
    | _ =>
      right
      simp [apply, page, file?, Kind.file?_mapFile, Function.comp_def,
        FileEdit.apply]
  | _ => exact .inr rfl

/-! ## The paths of headers -/

/-- The file name of the header of a source, without the name of the project before it. -/
def Project.headerFile (p : Project) (source : Path) : String :=
  Project.headerName p.root source ++ "." ++ headerSuffix

/-- The path of a file in the output directory of a project. -/
def Workspace.outputAt? (ws : Workspace) (owner : ProjectId) (name : String) : Option Path :=
  Path.absolute? ws.disk.current ((ws.project owner).outputDir.join ⟨name⟩)

/-- The path was just chosen for the header of a source. -/
def Workspace.Chosen (ws : Workspace) (file : ComponentId) (source output : Path) : Prop :=
  ∃ before, Build.chooseOutput file source before = .ok output ws

/-- The path is one that a file of its language can get: its own, or one for its header. -/
def Workspace.Suits (ws : Workspace) (file : ComponentId) (p : Path) : Prop :=
  ∃ f, (ws.component file).file? = some f ∧
    (f.language? = some .cpp ∧ p = f.path ∨ f.language? = some .light ∧ ws.Chosen file f.path p)

/-- The component is the file of a Light source that was read. -/
def Workspace.IsLight (ws : Workspace) (file : ComponentId) (source : Path) : Prop :=
  ∃ f, (ws.component file).file? = some f ∧ f.language? = some .light ∧ f.path = source

namespace Workspace

variable {ws ws' : Workspace} {file : ComponentId} {source p : Path}

theorem Suits.isFile (h : ws.Suits file p) : ws.isFile file = true := by
  obtain ⟨f, hf, -⟩ := h
  exact isFile_of_file? hf

theorem IsLight.isFile (h : ws.IsLight file source) : ws.isFile file = true := by
  obtain ⟨f, hf, -⟩ := h
  exact isFile_of_file? hf

theorem Chosen.suits (h : ws.Chosen file source p) (hlight : ws.IsLight file source) :
    ws.Suits file p := by
  obtain ⟨f, hf, hlanguage, rfl⟩ := hlight
  exact ⟨f, hf, .inr ⟨hlanguage, h⟩⟩

end Workspace

/-! ## The changes that writing headers makes -/

/-- The changes that writing headers makes. Where `F` holds they add no line feed to a name, and
where `L` holds nothing is loaded. Where `H` holds all writing is asked for by way of headers, so
no page changes but of files that are decided and not among `D`. -/
inductive Emits (F L H : Prop) (D : ComponentId → Prop) (ws : Workspace) : Change → Prop
  | settle {c : Change} (mem : Settles F L (fun _ => True) ws c) : Emits F L H D ws c
  | page {id : ComponentId} {e : Edit} (isPage : e.IsPage) (mine : H → ws.Open D id) :
      Emits F L H D ws (.edit id e)
  | handOn {id : ComponentId} (s : String)
      (isFile : H → ws.ForwardsToFiles → ws.isFile id = true)
      (mine : H → ws.ForwardsHome → ws.Open D id) : Emits F L H D ws (.edit id (.text s))
  | output {file : ComponentId} (p : Path) (undecided : ¬ws.Decided file)
      (suits : ws.Suits file p) : Emits F L H D ws (.edit file (.file (.output p)))
  | begun (file : ComponentId) : Emits F L H D ws (.record (.begun file))
  | stamp (i : InstructionId) (line : Nat) : Emits F L H D ws (.stamp i line)
  | take {output : Path} (owner : ProjectId) (new : ws.taken.lookup output = none) :
      Emits F L H D ws (.take output owner)
  | disk {d : Disk} (grows : ws.disk.Grows d) : Emits F L H D ws (.disk d)

section Emits

variable {F L H : Prop} {D : ComponentId → Prop} {ws ws' : Workspace} {c : Change}

variable {id : ComponentId} {e : Edit}

variable {D' G : ComponentId → Prop}

theorem Workspace.Open.mono (hD : ∀ file, D' file → D file) (h : ws.Open D id) : ws.Open D' id := by
  obtain ⟨file, hfile, hdecided, hnot⟩ := h
  exact ⟨file, hfile, hdecided, fun h' => hnot (hD file h')⟩

theorem Emits.relax {L' : Prop} (hL : L' → L) (hD : ∀ file, D' file → D file) (h : Emits F L H D ws c) :
    Emits F L' H D' ws c := by
  cases h with
  | settle mem => exact .settle (mem.relax hL fun _ h => h)
  | page isPage mine => exact .page isPage fun h => (mine h).mono hD
  | handOn s isFile mine => exact .handOn s isFile fun h hhome => (mine h hhome).mono hD
  | output p undecided suits => exact .output p undecided suits
  | begun file => exact .begun file
  | stamp i line => exact .stamp i line
  | take owner new => exact .take owner new
  | disk grows => exact .disk grows

theorem Emits.mono (hD : ∀ file, D' file → D file) (ws : Workspace) (c : Change) (h : Emits F L H D ws c) :
    Emits F L H D' ws c :=
  h.relax id hD

theorem Emits.not_adds (h : Emits F L H D ws c) (hL : L) : ¬c.Adds := by
  cases h with
  | settle mem => exact mem.not_adds hL
  | _ => exact id

theorem Emits.noFile (h : Emits F L H D ws c) {kind : Kind} (hnew : c.newKind? = some kind) :
    kind.isFile = false := by
  cases h with
  | settle mem =>
    cases mem with
    | load mem =>
      cases mem with
      | declare _ _ _ _ _ _ noFile =>
        cases hnew
        exact noFile
      | _ => cases hnew
    | _ => cases hnew
  | _ => cases hnew

theorem Emits.grows (h : Emits F L H D ws c) : ws.disk.Grows (c.apply ws).disk := by
  cases h with
  | settle mem =>
    cases mem with
    | load mem => cases mem <;> exact .refl _
    | _ => exact .refl _
  | disk grows => exact grows
  | _ => exact .refl _

theorem Emits.quiet (h : Emits F L H D ws c) (hL : L) : c.Quiet ws := by
  cases h with
  | settle mem => exact mem.quiet hL
  | page isPage _ => cases isPage <;> exact trivial
  | _ => exact trivial

theorem Reach.alike_of_emits (h : Reach (Emits F L H D) ws ws') (hs : ws.Sound) (hL : L) :
    ws.Alike ws' :=
  h.alike hs fun _ _ hc => hc.quiet hL

theorem Emits.plain (h : Emits F L H D ws c) (hF : F) : c.Plain ws := by
  cases h with
  | settle mem => exact mem.plain hF
  | page isPage _ => cases isPage <;> exact trivial
  | _ => exact trivial

/-- Settling forwards text to files only, none if nothing is loaded, and only that of a function inside
another one. -/
theorem Emits.forward {target : ComponentId} (h : Emits F L H D ws (.edit id (.forward target))) :
    ws.isFile target = true ∧ ¬L ∧
      ∃ function, ws.NestedIn id function ∧ ws.fileOf? function = some target := by
  cases h with
  | settle mem =>
    cases mem with
    | load mem unloaded =>
      cases mem with
      | forward _ isFile declared => exact ⟨isFile, unloaded, declared⟩
  | page isPage _ => cases isPage

theorem Settles.not_isPage (h : Settles F L G ws (.edit id e)) : ¬e.IsPage := by
  intro hpage
  cases hpage with
  | _ =>
    cases h with
    | load mem _ => cases mem

/-- Where text goes after a change: as before, or where the change says. -/
theorem Change.forward?_apply (c : Change) (legal : c.Legal ws) (id : ComponentId) :
    ((c.apply ws).component id).forward? = (ws.component id).forward? ∨
      ∃ target, c = .edit id (.forward target) ∧
        ((c.apply ws).component id).forward? = some target := by
  rcases c.view_apply forward? (fun _ _ _ => rfl) legal id (.inr fun _ _ _ _ _ => rfl) with hsame | ⟨e, rfl, heq⟩
  · exact .inl hsame
  · cases e with
    | forward target => exact .inr ⟨target, rfl, by rw [heq]; rfl⟩
    | param | resolved =>
      rw [heq]
      simp only [Edit.apply]
      split <;> exact .inl rfl
    | _ => exact .inl (by rw [heq]; rfl)

/-- A change that forwards text to files only, and changes no page of a file that is not decided
but to add text to the file itself. -/
def Change.Neat (ws : Workspace) : Change → Prop
  | .edit _ (.forward target) => ws.isFile target = true
  | .edit id e => e.IsPage →
    (∃ file, ws.fileOf? id = some file ∧ ws.Decided file) ∨
      (∃ s, e = .text s) ∧ ws.isFile id = true
  | _ => True

theorem Change.neat_edit (hforward : ∀ target, e ≠ .forward target)
    (h : e.IsPage → (∃ file, ws.fileOf? id = some file ∧ ws.Decided file) ∨
      (∃ s, e = .text s) ∧ ws.isFile id = true) : (Change.edit id e).Neat ws := by
  cases e with
  | forward target => exact absurd rfl (hforward target)
  | _ => exact h

theorem Emits.neat (h : Emits F L H D ws c) (hH : H) (hfiles : ws.ForwardsToFiles) :
    c.Neat ws := by
  cases h with
  | settle mem =>
    cases c with
    | edit id e =>
      by_cases hforward : ∃ target, e = .forward target
      · obtain ⟨target, rfl⟩ := hforward
        exact (Emits.settle (D := D) (H := H) mem).forward.1
      · exact Change.neat_edit (fun target h => hforward ⟨target, h⟩)
          fun hpage => absurd hpage mem.not_isPage
    | _ => exact trivial
  | page isPage mine =>
    obtain ⟨file, hfile, hdecided, -⟩ := mine hH
    exact Change.neat_edit (by rintro _ rfl; cases isPage) fun _ => .inl ⟨file, hfile, hdecided⟩
  | handOn s isFile _ => exact fun _ => .inr ⟨⟨s, rfl⟩, isFile hH hfiles⟩
  | output p _ _ => exact fun hpage => by cases hpage
  | _ => exact trivial

theorem Workspace.ForwardsToFiles.apply (h : ws.ForwardsToFiles) (legal : c.Legal ws)
    (hc : c.Neat ws) : (c.apply ws).ForwardsToFiles := by
  intro id target hforward
  have hext := c.extends_apply legal
  rcases c.forward?_apply legal id with hsame | ⟨t, rfl, hnew⟩
  · rw [hsame] at hforward
    have hfile := h id target hforward
    rw [hext.isFile (lt_size_of_isFile hfile)]
    exact hfile
  · rw [hnew] at hforward
    cases hforward
    rw [hext.isFile (lt_size_of_isFile hc)]
    exact hc

theorem Workspace.ForwardsHome.apply (h : ws.ForwardsHome) (hs : ws.Sound) (legal : c.Legal ws)
    (hc : Emits F L H D ws c) (hL : L) : (c.apply ws).ForwardsHome := by
  intro id target hforward
  have hext := c.extends_apply legal
  rcases c.forward?_apply legal id with hsame | ⟨t, rfl, -⟩
  · rw [hsame] at hforward
    obtain ⟨hid, hfile⟩ := h id target hforward
    have hlt : id < ws.size := by
      refine Nat.lt_of_not_le fun hle => ?_
      rw [ws.component_of_size_le hle] at hforward
      cases hforward
    rw [hext.isFile hlt, hext.fileOf?_eq hs (hs.apply c legal) hlt]
    exact ⟨hid, hfile⟩
  · exact absurd hL hc.forward.2.1

theorem Workspace.ForwardsHome.forward?_file (h : ws.ForwardsHome) {file : ComponentId}
    (hfile : ws.isFile file = true) : (ws.component file).forward? = none := by
  cases hforward : (ws.component file).forward? with
  | none => rfl
  | some target =>
    rw [(h file target hforward).1] at hfile
    cases hfile

/-- **A neat change keeps clean what is not decided.** -/
theorem Workspace.Tidy.apply (h : ws.Tidy) (hs : ws.Sound) (legal : c.Legal ws)
    (hc : c.Neat ws) : (c.apply ws).Tidy where
  forwards := h.forwards.apply legal hc
  clean := by
    intro id hundecided
    have hext := c.extends_apply legal
    by_cases hid : id < ws.size
    · have hfile := hext.fileOf?_eq hs (hs.apply c legal) hid
      have hbefore : ∀ file, ws.fileOf? id = some file → ¬ws.Decided file :=
        fun file hf hd => hundecided file (hfile.trans hf) (hd.apply c legal)
      obtain ⟨hwritten, hbuffer⟩ := h.clean id hbefore
      rw [hext.isFile hid]
      rcases c.view_apply page (fun _ _ _ => rfl) legal _ (.inl hid) with hsame | ⟨e, rfl, heq⟩
      · rw [page, page, Prod.mk.injEq, Prod.mk.injEq] at hsame
        rw [hsame.1, hsame.2.1]
        exact ⟨hwritten, hbuffer⟩
      · rcases e.page_apply (ws.component id) with hpage | hsame
        · -- the page of an undecided file: only text that is added to the file itself
          have hcases : (∃ file, ws.fileOf? id = some file ∧ ws.Decided file) ∨
              (∃ s, e = .text s) ∧ ws.isFile id = true := by
            cases hpage <;> exact hc (by constructor)
          rcases hcases with ⟨file, hf, hd⟩ | ⟨⟨s, rfl⟩, hisFile⟩
          · exact absurd hd (hbefore file hf)
          · rw [heq, hisFile]
            exact ⟨hwritten, by rintro ⟨⟩⟩
        · rw [← heq, page, page, Prod.mk.injEq, Prod.mk.injEq] at hsame
          rw [hsame.1, hsame.2.1]
          exact ⟨hwritten, hbuffer⟩
    · have hold : ws.component id = default := ws.component_of_size_le (Nat.le_of_not_lt hid)
      rcases c.view_apply (fun c => (c.written, c.buffer)) (fun _ _ _ => rfl) legal id (.inr fun _ _ _ _ _ => rfl)
        with hsame | ⟨e, rfl, -⟩
      · rw [hold, Prod.mk.injEq] at hsame
        rw [hsame.1, hsame.2]
        exact ⟨rfl, fun _ => rfl⟩
      · rw [Change.apply, component_modify_eq, if_neg fun hx => hid hx.2, hold]
        exact ⟨rfl, fun _ => rfl⟩

/-- What is known of a workspace while headers are written. -/
structure Workspace.Primed (F L H : Prop) (ws : Workspace) : Prop extends ws.Ready F L where
  tidy : H → ws.Tidy

/-- **Writing headers keeps what is known.** -/
theorem Reach.primed (h : Reach (Emits F L H D) ws ws') (hs : ws.Sound) (hp : ws.Primed F L H) :
    ws'.Primed F L H where
  plain hF := h.invariant hs (hp.plain hF) fun _ c _ legal hc hplain =>
    hplain.apply c legal (hc.plain hF)
  loaded hL := h.invariant hs (hp.loaded hL) fun _ _ _ legal hc hloaded =>
    hloaded.apply legal (hc.not_adds hL)
  tidy hH := h.invariant hs (hp.tidy hH) fun _ _ hs legal hc htidy => htidy.apply hs legal (hc.neat hH htidy.forwards)

/-- Where nothing is loaded, writing headers forwards no text anew. -/
theorem Reach.forwardsHome (h : Reach (Emits F L H D) ws ws') (hs : ws.Sound) (hL : L)
    (hhome : ws.ForwardsHome) : ws'.ForwardsHome :=
  h.invariant (I := fun ws => ws.ForwardsHome) hs hhome fun _ _ hs legal hc hhome =>
    hhome.apply hs legal hc hL

/-- **The pages of a file among `D` stay as they are**, where nothing is loaded and text is forwarded
to the file around it only. -/
theorem Reach.page_eq (h : Reach (Emits F L H D) ws ws') (hs : ws.Sound) (hL : L) (hH : H)
    (hhome : ws.ForwardsHome) {file : ComponentId} (hfile : ws.fileOf? id = some file)
    (hD : D file) : (ws'.component id).page = (ws.component id).page := by
  refine (h.invariant (I := fun ws' => ws'.ForwardsHome ∧ id < ws'.size ∧
    ws'.fileOf? id = some file ∧ (ws'.component id).page = (ws.component id).page) hs
    ⟨hhome, hs.lt_size_of_fileOf? hfile, hfile, rfl⟩ ?_).2.2.2
  rintro next c hsn legal hc ⟨hhome, hlt, hfile, hpage⟩
  have hext := c.extends_apply legal
  refine ⟨hhome.apply hsn legal hc hL, lt_of_lt_of_le hlt hext.size_le,
    (hext.fileOf?_eq hsn (hsn.apply c legal) hlt).trans hfile, ?_⟩
  have hclosed : ¬next.Open D id := by
    rintro ⟨other, hother, -, hnot⟩
    rw [hfile] at hother
    cases hother
    exact hnot hD
  rw [← hpage]
  rcases c.view_apply page (fun _ _ _ => rfl) legal _ (.inl hlt) with hsame | ⟨e, rfl, heq⟩
  · exact hsame
  · rcases e.page_apply (next.component id) with hisPage | hsame
    · cases hc with
      | settle mem => exact absurd hisPage mem.not_isPage
      | page _ mine => exact absurd (mine hH) hclosed
      | handOn s _ mine => exact absurd (mine hH hhome) hclosed
      | output p _ _ => cases hisPage
    · rw [heq]
      exact hsame

theorem Reach.undecided (h : Reach (Settles F L G) ws ws') (hs : ws.Sound) {file : ComponentId}
    (hlt : file < ws.size) (hu : ¬ws.Decided file) : ¬ws'.Decided file := by
  refine (h.invariant (I := fun ws => file < ws.size ∧ ¬ws.Decided file) hs ⟨hlt, hu⟩ ?_).2
  rintro next c - legal hc ⟨hlt, hu⟩
  refine ⟨lt_of_lt_of_le hlt (c.extends_apply legal).size_le, ?_⟩
  rcases next.output?_apply c legal hlt with heq | ⟨q, rfl, -⟩
  · rw [Workspace.Decided, heq]
    exact hu
  · cases hc with
    | load mem _ => cases mem

/-- The project that a file belongs to. -/
def Workspace.projectOf? (ws : Workspace) (id : ComponentId) : Option ProjectId :=
  (ws.component id).file?.bind SourceFile.project?

theorem Emits.projectOf?_eq (hc : Emits F L H D ws c) (legal : c.Legal ws) (hid : id < ws.size) :
    (c.apply ws).projects = ws.projects ∧ (c.apply ws).projectOf? id = ws.projectOf? id := by
  constructor
  · cases hc with
    | settle mem =>
      cases mem with
      | load mem => cases mem <;> rfl
      | _ => rfl
    | _ => rfl
  · rw [projectOf?, projectOf?]
    rcases c.view_apply file? (fun _ _ _ => rfl) legal _ (.inl hid) with hsame | ⟨e, rfl, heq⟩
    · rw [hsame]
    · rw [heq]
      rcases e.apply_file? (ws.component id) with hsame | ⟨g, rfl, hg⟩
      · rw [hsame]
      · rw [hg]
        cases (ws.component id).file? with
        | none => rfl
        | some f =>
          rcases g.project?_apply f with hsame | ⟨p, rfl, -⟩
          · exact hsame
          · cases hc with
            | settle mem => cases mem with | load mem => cases mem
            | page isPage => cases isPage

theorem Reach.spellingOf_eq (h : Reach (Emits F L H D) ws ws') (hs : ws.Sound)
    (hid : id < ws.size) : ws'.spellingOf id = ws.spellingOf id := by
  have hroot : ws.outermost id < ws.size := lt_of_le_of_lt (hs.outermost_le id) hid
  obtain ⟨-, hprojects, hproject⟩ := h.invariant (I := fun ws' => ws.outermost id < ws'.size ∧
    ws'.projects = ws.projects ∧ ws'.projectOf? (ws.outermost id) = ws.projectOf? (ws.outermost id))
    hs ⟨hroot, rfl, rfl⟩ (by
      rintro next c - legal hc ⟨hlt, hprojects, hproject⟩
      obtain ⟨hprojects', hproject'⟩ := hc.projectOf?_eq legal hlt
      exact ⟨lt_of_lt_of_le hlt (c.extends_apply legal).size_le, hprojects'.trans hprojects,
        hproject'.trans hproject⟩)
  have howner : ws'.owner? id = ws.owner? id := by
    rw [owner?, outermost, h.extension.enclosing_eq hs (h.sound hs) hid]
    exact hproject
  rw [spellingOf, howner, spellingOf]
  simp only [project, hprojects]

theorem Emits.output?_eq (hc : Emits F L H D ws c) (legal : c.Legal ws) {file : ComponentId} {p : Path}
    (hp : ws.output? file = some p) : (c.apply ws).output? file = some p := by
  have hd := decided_of_output? hp
  rcases ws.output?_apply c legal (lt_size_of_isFile hd.isFile) with heq | ⟨q, rfl, -⟩
  · exact heq.trans hp
  · cases hc with
    | settle mem =>
      cases mem with
      | load mem _ => cases mem
    | page isPage _ => cases isPage
    | output _ undecided _ => exact absurd hd undecided

theorem Reach.output?_eq (h : Reach (Emits F L H D) ws ws') (hs : ws.Sound) {file : ComponentId} {p : Path}
    (hp : ws.output? file = some p) : ws'.output? file = some p :=
  h.invariant (I := fun ws => ws.output? file = some p) hs hp
    fun _ _ _ legal hc hp => hc.output?_eq legal hp

end Emits

end LightHeaders
