import LightHeaders.Proofs.Bare
import LightHeaders.Proofs.OutputPaths
import LightHeaders.Proofs.Sessions
import LightHeaders.Proofs.Spelling

set_option autoImplicit false

/-! # What is written and what is on the disk

The path of a header is decided before its text is written, and other headers can be written in between.
So at any time some files have a path and no header yet: those that are **under way**. Of all others
(`Workspace.Published`) it is known that the header is on the disk, that the names in the source were
resolved, and that every line that includes a file spells the path of a header that is decided.

That names were resolved is said of a moment of the session (`Workspace.Linked`). A session goes on by
strides (`Stride`): sources are loaded as a whole, files are settled as a whole, names are looked up, and
in between pages are written. So a moment between two strides is none in the middle of a source.

Everything that is put on a page is made of whole lines (`Lined`), and a line that is put there is lawful
at that time. Paths that are decided stay, so it stays lawful.
-/

namespace LightHeaders

open Text Workspace

/-! ## Text of whole lines -/

/-- The text is a row of whole lines that meet `P`. -/
inductive Lined (P : String → Prop) : String → Prop
  | nil : Lined P ""
  | cons {line rest : String} (first : P line) (others : Lined P rest) : Lined P (line ++ "\n" ++ rest)

namespace Lined

variable {P Q : String → Prop} {s t : String}

variable {line : String}

theorem single (h : P line) : Lined P (line ++ "\n") := by
  rw [← String.append_empty (s := line ++ "\n")]
  exact .cons h .nil

theorem append (hs : Lined P s) (ht : Lined P t) : Lined P (s ++ t) := by
  induction hs with
  | nil => rwa [String.empty_append]
  | cons first _ ih =>
    rw [String.append_assoc]
    exact .cons first ih

theorem mono (h : Lined P s) (hPQ : ∀ line, P line → Q line) : Lined Q s := by
  induction h with
  | nil => exact .nil
  | cons first _ ih => exact .cons (hPQ _ first) ih

/-- The lines can be told from the text, but for an empty one at its end. -/
theorem of_mem_pieces (h : Lined P s) (hone : ∀ line, P line → OneLine line) (hmem : line ∈ pieces '\n' s) :
    line = "" ∨ P line := by
  induction h with
  | nil => exact .inl (List.mem_singleton.mp hmem)
  | @cons first rest hfirst _ ih =>
    have htext : (first ++ "\n" ++ rest).toList = first.toList ++ '\n' :: rest.toList := by simp
    rw [pieces, htext, splitAt_append_cons (hone first hfirst), List.map_cons, String.ofList_toList] at hmem
    rcases List.mem_cons.mp hmem with rfl | hmem
    · exact .inr hfirst
    · exact ih hmem

end Lined

/-! ## The lines of a header -/

/-- The line that includes a file, with what stands between the quotes. -/
def quoting (s : String) : String := "#include \"" ++ s ++ "\""

theorem quoting_injective : Function.Injective quoting := by
  intro s t h
  have hlist := congrArg String.toList h
  simp only [quoting, String.toList_append, List.append_assoc] at hlist
  exact String.toList_inj.mp (List.append_cancel_right (List.append_cancel_left hlist))

theorem IsCode.ne_quoting {line : String} (h : IsCode line) (s : String) : line ≠ quoting s := by
  rintro rfl
  refine h.2 ?_
  rw [quoting, String.toList_append, List.getLast?_append_of_ne_nil _ (by decide)]
  rfl

namespace Workspace

variable {S : Spelling → Prop} {ws ws' : Workspace}

/-- The path is that of a header that is decided, in a spelling that `S` allows. -/
def IsHeader (S : Spelling → Prop) (ws : Workspace) (path : String) : Prop :=
  ∃ id output spelling, ws.output? id = some output ∧ S spelling ∧ path = spelling.spell output

/-- A line of a header: if it includes a file, that is a header that is decided. -/
def Lawful (S : Spelling → Prop) (ws : Workspace) (line : String) : Prop :=
  OneLine line ∧ ∀ s, line = quoting s → ∃ path, s = Literal.escape path ∧ ws.IsHeader S path

variable {line path : String}

theorem IsHeader.mono (h : ws.IsHeader S path)
    (hout : ∀ id output, ws.output? id = some output → ws'.output? id = some output) :
    ws'.IsHeader S path := by
  obtain ⟨id, output, spelling, houtput, hspelling, rfl⟩ := h
  exact ⟨id, output, spelling, hout id output houtput, hspelling, rfl⟩

theorem Lawful.mono (h : ws.Lawful S line)
    (hout : ∀ id output, ws.output? id = some output → ws'.output? id = some output) :
    ws'.Lawful S line := by
  refine ⟨h.1, fun s hs => ?_⟩
  obtain ⟨path, hpath, hheader⟩ := h.2 s hs
  exact ⟨path, hpath, hheader.mono hout⟩

theorem lawful_of_isCode (h : IsCode line) : ws.Lawful S line :=
  ⟨h.1, fun s hs => absurd hs (h.ne_quoting s)⟩

theorem lawful_include (h : ws.IsHeader S path) : ws.Lawful S (quoting (Literal.escape path)) := by
  refine ⟨(OneLine.append (by decide) (Literal.oneLine_escape path)).append (by decide), fun s hs => ?_⟩
  exact ⟨path, (quoting_injective hs).symm, h⟩

end Workspace

/-! ## What is known in a session -/

/-- Changes that write headers and add no line feed to a name. -/
abbrev Publishes : Change.Class := Emits True False False fun _ => False

/-- Changes that register projects which spell paths as `S` allows. -/
abbrev Charts (S : Spelling → Prop) : Change.Class := Plans True False S

/-- Changes of a session in which paths are spelled as `S` allows. -/
abbrev Tends (S : Spelling → Prop) : Change.Class := Serves True False S True False

/-- What is known of a workspace in a session in which nobody else changes the disk. -/
structure Workspace.Charted (S : Spelling → Prop) (ws : Workspace) : Prop where
  plain : S .plain
  primed : ws.Primed True False False
  outputs : ws.Outputs
  mapped : ws.Mapped True False S
  source : ∀ id f l, (ws.component id).file? = some f → f.language? = some l → ws.disk.isFile f.path = true
  /-- The text of a file is its own. -/
  own : ∀ id, ws.isFile id = true → (ws.component id).forward? = none

section Charted

variable {S : Spelling → Prop} {ws ws' : Workspace} {c : Change}

variable {id : ComponentId}

theorem Tends.source_apply (h : Tends S ws c) (legal : c.Legal ws) (hgrows : ws.disk.Grows (c.apply ws).disk)
    (hcharted : ws.Charted S) {f : SourceFile} {l : Language}
    (hf : ((c.apply ws).component id).file? = some f) (hl : f.language? = some l) :
    (c.apply ws).disk.isFile f.path = true := by
  have hworks := h.works (K := Kind.NoFile)
  rcases c.file?_apply legal id with heq | ⟨-, kind, hnew, heq⟩ | ⟨-, g, rfl, heq⟩
  · rw [heq] at hf
    exact hgrows.isFile (hcharted.source id f l hf hl)
  · -- nothing is known of a new file
    rw [heq] at hf
    rw [hworks.blank (fun _ hk => hk) hnew f hf] at hl
    cases hl
  · rw [heq] at hf
    obtain ⟨old, hold, rfl⟩ := Option.map_eq_some_iff.mp hf
    rw [g.path_apply]
    rcases g.language?_apply old with hsame | ⟨l', rfl, -⟩
    · exact hgrows.isFile (hcharted.source id old l hold (hsame ▸ hl))
    · obtain ⟨-, s, hs⟩ := hworks.licensed old hold
      exact hgrows.isFile (Disk.isFile_of_readText hs)

theorem Tends.own_apply (h : Tends S ws c) (legal : c.Legal ws) (hcharted : ws.Charted S)
    (hfile : (c.apply ws).isFile id = true) : ((c.apply ws).component id).forward? = none := by
  rcases c.forward?_apply legal id with hsame | ⟨target, rfl, -⟩
  · rw [hsame]
    by_cases hid : id < ws.size
    · rw [(c.extends_apply legal).isFile hid] at hfile
      exact hcharted.own id hfile
    · rw [ws.component_of_size_le (Nat.le_of_not_lt hid)]
      rfl
  · -- only what is no file is forwarded
    have hno : ws.isFile id = false := by
      cases h with
      | emit mem =>
        cases mem with
        | settle mem =>
          cases mem with
          | load mem => cases mem with | forward noFile _ => exact noFile
        | page isPage => cases isPage
      | plan mem =>
        obtain ⟨_, hedit, -⟩ := mem.edit
        cases hedit
    rw [isFile, kind, Change.apply, component_modify_eq] at hfile
    split at hfile
    · exact absurd (hno.symm.trans hfile) Bool.false_ne_true
    · exact absurd (hno.symm.trans hfile) Bool.false_ne_true

/-- **A session keeps what is known.** -/
theorem Tends.charted_apply (h : Tends S ws c) (hs : ws.Sound) (legal : c.Legal ws)
    (hgrows : ws.disk.Grows (c.apply ws).disk) (hcharted : ws.Charted S) : (c.apply ws).Charted S where
  plain := hcharted.plain
  primed := (Reach.single c legal h).primed_serves hs hcharted.primed
  outputs := (h.works (K := Kind.NoFile)).outputs_apply hs legal hcharted.outputs
  mapped := h.mapped_apply hs legal hcharted.mapped
  source _ _ _ hf hl := h.source_apply legal hgrows hcharted hf hl
  own _ hfile := h.own_apply legal hcharted hfile

theorem Reach.charted_of_publishes (h : Reach Publishes ws ws') (hs : ws.Sound) (hcharted : ws.Charted S) :
    ws'.Charted S :=
  h.invariant (I := Workspace.Charted S) hs hcharted fun _ _ hs legal hc =>
    Tends.charted_apply (.emit hc) hs legal hc.grows

theorem Reach.charted_of_charts (h : Reach (Charts S) ws ws') (hs : ws.Sound) (hcharted : ws.Charted S) :
    ws'.Charted S :=
  h.invariant (I := Workspace.Charted S) hs hcharted fun _ _ hs legal hc =>
    Tends.charted_apply (.plan hc) hs legal (hc.disk_apply ▸ .refl _)

theorem Workspace.Charted.spellingOf (h : ws.Charted S) (id : ComponentId) : S (ws.spellingOf id) := by
  rw [Workspace.spellingOf]
  cases howner : ws.owner? id with
  | none => exact h.plain
  | some owner => exact h.mapped.spelled owner (h.outputs.owned _ owner howner)

end Charted

/-! ## How far a file is -/

/-- How far the file is: its output path, and whether its names were resolved. -/
def Component.progress (c : Component) : Option (Option Path × Bool) :=
  c.file?.map fun f => (f.output?, f.settled)

/-- Whether the names in a file were resolved, or at least some of them. -/
def Workspace.isSettled (ws : Workspace) (id : ComponentId) : Bool := (ws.component id).file?.any (·.settled)

section Progress

variable {ws ws' : Workspace} {id : ComponentId}

theorem Workspace.output?_of_progress (h : (ws'.component id).progress = (ws.component id).progress) :
    ws'.output? id = ws.output? id := by
  have hout := congrArg (fun o => o.bind Prod.fst) h
  simp only [Component.progress, Option.bind_map, Function.comp_def] at hout
  exact hout

theorem Workspace.isSettled_of_progress (h : (ws'.component id).progress = (ws.component id).progress) :
    ws'.isSettled id = ws.isSettled id := by
  have hset := congrArg (fun o => o.any Prod.snd) h
  simp only [Component.progress, Option.any_map] at hset
  exact hset

theorem Reach.isSettled {P : Change.Class} (h : Reach P ws ws') (hs : ws.Sound)
    (hset : ws.isSettled id = true) : ws'.isSettled id = true := by
  obtain ⟨f, hf, hsettled⟩ := (Option.any_eq_true _ _).mp hset
  have hlt := lt_size_of_isFile (isFile_of_file? hf)
  obtain ⟨f', hf', -⟩ := file?_of_spot (h.spot_eq hs hlt) hf
  refine (Option.any_eq_true _ _).mpr ⟨f', hf', h.settled hs hlt (fun g hg => ?_) hf'⟩
  cases hf.symm.trans hg
  exact hsettled

end Progress

/-! ## The strides of a session -/

/-- A step of a session as a whole that succeeds. No step makes components from a part of a source, only
settling writes values anew, and nothing is written to the disk but headers at the paths decided for them. -/
inductive Stride (ws : Workspace) : Workspace → Prop
  | load (id : ComponentId) {ws' : Workspace} (run : Build.load id ws = .ok () ws') : Stride ws ws'
  | settle (id : ComponentId) {ws' : Workspace} (run : Build.settle id ws = .ok () ws') : Stride ws ws'
  | find (scope : ComponentId) (name : String) {target : Target} {ws' : Workspace}
      (run : Build.targetNamed scope name ws = .ok target ws') : Stride ws ws'
  | plan {S : Spelling → Prop} {c : Change} (legal : c.Legal ws) (mem : Charts S ws c) :
      Stride ws (c.apply ws)
  | referenced (id : ComponentId) : Stride ws ((Change.edit id .referenced).apply ws)
  | page (id : ComponentId) {e : Edit} (isPage : e.IsPage) : Stride ws ((Change.edit id e).apply ws)
  | stamp (i : InstructionId) (line : Nat) : Stride ws ((Change.stamp i line).apply ws)
  | take (taken : List (Path × ProjectId)) : Stride ws { ws with taken }
  | output {file : ComponentId} {p : Path} (suits : ws.Suits file p) :
      Stride ws ((Change.edit file (.file (.output p))).apply ws)
  | begun (file : ComponentId) : Stride ws ((Change.record (.begun file)).apply ws)
  | directories {dir : Path} {d : Disk} (made : ws.disk.makeDirectories dir = .ok d) :
      Stride ws ((Change.disk d).apply ws)
  | header {file : ComponentId} {output : Path} (decided : ws.output? file = some output) {text : String}
      {d : Disk} (written : ws.disk.writeText output text = .ok d) : Stride ws ((Change.disk d).apply ws)

/-- Strides lead from one workspace to another. -/
abbrev Strides : Workspace → Workspace → Prop := Relation.ReflTransGen Stride

/-- The names in a file were all resolved and its values fit: at a moment of the session from `start` to
`ws` at which the file was not settled, settling it came to its end. -/
def Workspace.Linked (ws start : Workspace) (id : ComponentId) : Prop :=
  ∃ before after, Strides start before ∧ before.isFile id = true ∧ before.isSettled id = false ∧
    Build.settle id before = .ok () after ∧ Strides after ws

section Strides

variable {start ws ws' : Workspace} {id : ComponentId}

theorem Workspace.Linked.strides (h : ws.Linked start id) (hstrides : Strides ws ws')
    : ws'.Linked start id := by
  obtain ⟨before, after, hbefore, hfile, hunsettled, hsettle, hafter⟩ := h
  exact ⟨before, after, hbefore, hfile, hunsettled, hsettle, hafter.trans hstrides⟩

theorem Reach.strides {S : Spelling → Prop} (h : Reach (Charts S) ws ws') : Strides ws ws' := by
  induction h with
  | refl => exact .refl
  | tail _ step ih =>
    cases step with
    | make c legal mem => exact ih.tail (.plan legal mem)

/-- Work that succeeds goes by strides. -/
def Build.Paces {α : Type} (m : Build α) : Prop :=
  ∀ ⦃ws a ws'⦄, m ws = .ok a ws' → Strides ws ws'

/-- **Spelling goes by strides.** -/
theorem Build.spellingRules_paces : SpellingRules fun _ m => Paces m where
  pure a _ _ _ h := by
    cases h
    exact .refl
  throw e _ _ _ h := by cases h
  bind hm hk _ _ _ h := by
    obtain ⟨a, _, hfirst, hrest⟩ := exists_of_bind_eq_ok h
    exact (hm hfirst).trans (hk a hrest)
  read _ h ws _ _ hrun := h ws hrun
  targetNamed scope name _ _ _ h := .single (.find scope name h)

end Strides

/-- Everything that is decided is written, but for the files among `T`, which are under way: the header is
on the disk, the names in a Light source were resolved, and each line of its header is lawful. -/
structure Workspace.Published (S : Spelling → Prop) (T : ComponentId → Prop) (ws start : Workspace) : Prop
    extends ws.Charted S where
  pages : ∀ id, Lined (ws.Lawful S) (ws.text id)
  fresh : ∀ id, ¬ws.Decided id → ws.isSettled id = false
  written : ∀ id output, ws.output? id = some output → ¬T id → ws.disk.isFile output = true
  headers : ∀ id f output, (ws.component id).file? = some f → Language.ofPath? f.path = some .light →
    f.output? = some output → ¬T id →
    ws.isSettled id = true ∧ ∃ text, ws.disk.readText output = .ok text ∧ Lined (ws.Lawful S) text
  strode : Strides start ws
  /-- What counts as settled was settled with success. -/
  linked : ∀ id, ws.isSettled id = true → ws.Linked start id

namespace Workspace.Published

variable {S : Spelling → Prop} {T : ComponentId → Prop} {start ws ws' : Workspace}

/-- What is published stays so if the paths and the disk are as before, lines that come onto pages are
lawful, and nothing is settled that is not decided or not with success. -/
theorem keep {P : Change.Class} (h : ws.Published S T start) (hs : ws.Sound) (hreach : Reach P ws ws')
    (hstrides : Strides ws ws') (hcharted : ws'.Charted S) (hout : ∀ id, ws'.output? id = ws.output? id)
    (hdisk : ws'.disk = ws.disk)
    (hset : ∀ id, ws'.isSettled id = ws.isSettled id ∨ ws.Decided id ∧ ws'.Linked start id)
    (htext : ∀ id, Lined (ws.Lawful S) (ws'.text id)) : ws'.Published S T start where
  toCharted := hcharted
  pages id := (htext id).mono fun _ hline => hline.mono fun id _ houtput => (hout id).trans houtput
  fresh id hid := by
    rw [Decided, hout] at hid
    rcases hset id with hsame | ⟨hdecided, -⟩
    · exact hsame.trans (h.fresh id hid)
    · exact absurd hdecided hid
  written id output houtput hT := by
    rw [hdisk]
    exact h.written id output ((hout id).symm.trans houtput) hT
  headers id f output hf hlight houtput hT := by
    have hold : ws.output? id = some output := by rw [← hout, output?, hf, Option.bind_some, houtput]
    obtain ⟨g, hg, hgout⟩ := Option.bind_eq_some_iff.mp hold
    have hlt := lt_size_of_isFile (isFile_of_file? hg)
    obtain ⟨f', hf', hpath, -⟩ := file?_of_spot (hreach.spot_eq hs hlt) hg
    rw [hf] at hf'
    cases hf'
    obtain ⟨hsettled, text, hread, hlined⟩ := h.headers id g output hg (hpath ▸ hlight) hgout hT
    refine ⟨hreach.isSettled hs hsettled, text, hdisk ▸ hread, hlined.mono fun _ hline => ?_⟩
    exact hline.mono fun id _ houtput => (hout id).trans houtput
  strode := h.strode.trans hstrides
  linked id hsettled := by
    rcases hset id with hsame | ⟨-, hlinked⟩
    · exact (h.linked id (hsame ▸ hsettled)).strides hstrides
    · exact hlinked

theorem of_reach (h : ws.Published S T start) (hs : ws.Sound) (hreach : Reach Publishes ws ws')
    (hstrides : Strides ws ws') (hout : ∀ id, ws'.output? id = ws.output? id) (hdisk : ws'.disk = ws.disk)
    (hset : ∀ id, ws'.isSettled id = ws.isSettled id ∨ ws.Decided id ∧ ws'.Linked start id)
    (htext : ∀ id, Lined (ws.Lawful S) (ws'.text id)) : ws'.Published S T start :=
  h.keep hs hreach hstrides (hreach.charted_of_publishes hs h.toCharted) hout hdisk hset htext

end Workspace.Published

/-! ## Registering projects -/

section Charts

variable {S : Spelling → Prop} {T : ComponentId → Prop} {start ws ws' : Workspace} {c : Change}

theorem Charts.steady (h : Charts S ws c) (legal : c.Legal ws) (id : ComponentId) :
    (c.apply ws).text id = ws.text id ∧ (c.apply ws).output? id = ws.output? id ∧
      (c.apply ws).isSettled id = ws.isSettled id := by
  rw [text, text, output?, output?, isSettled, isSettled]
  rcases c.view_apply (fun c => (c.buffer.text, c.file?.bind (·.output?), c.file?.any (·.settled)))
    (fun _ _ _ => rfl) legal id (.inr fun _ _ _ _ hkind => by obtain ⟨path, rfl⟩ := h.newKind? hkind; rfl)
    with heq | ⟨e, rfl, heq⟩
  · rwa [Prod.mk.injEq, Prod.mk.injEq] at heq
  · obtain ⟨project, rfl, -⟩ := h.edit
    rw [heq, Component.file?, Component.file?, Edit.apply, Kind.file?_mapFile]
    cases (ws.component id).kind.file? <;> exact ⟨rfl, rfl, rfl⟩

/-- **To register a project keeps what is published.** -/
theorem Workspace.Published.charts (h : ws.Published S T start) (hs : ws.Sound)
    (hreach : Reach (Charts S) ws ws') :
    ws'.Published S T start := by
  obtain ⟨hsteady, hdisk⟩ := hreach.invariant (I := fun ws' => (∀ id, ws'.text id = ws.text id ∧
    ws'.output? id = ws.output? id ∧ ws'.isSettled id = ws.isSettled id) ∧ ws'.disk = ws.disk) hs
    ⟨fun _ => ⟨rfl, rfl, rfl⟩, rfl⟩ (by
      rintro next c - legal hc ⟨hsteady, hdisk⟩
      refine ⟨fun id => ?_, hc.disk_apply.trans hdisk⟩
      obtain ⟨htext, hout, hset⟩ := Charts.steady hc legal id
      exact ⟨htext.trans (hsteady id).1, hout.trans (hsteady id).2.1, hset.trans (hsteady id).2.2⟩)
  refine h.keep hs hreach hreach.strides (hreach.charted_of_charts hs h.toCharted)
    (fun id => (hsteady id).2.1) hdisk (fun id => .inl (hsteady id).2.2) fun id => ?_
  rw [(hsteady id).1]
  exact h.pages id

end Charts

/-! ## Settling -/

theorem FileEdit.settled_apply_or (e : FileEdit) (f : SourceFile) :
    (e.apply f).settled = f.settled ∨ e = .settled := by
  cases e with
  | settled => exact .inr rfl
  | library | dependency =>
    simp only [apply]
    split <;> exact .inl rfl
  | _ => exact .inl rfl

section Settles

variable {F L : Prop} {G : ComponentId → Prop} {S : Spelling → Prop} {T : ComponentId → Prop}
  {start ws ws' : Workspace} {c : Change}

theorem Settles.widen (h : Settles F L G ws c) : Settles F L (fun _ => True) ws c :=
  h.relax id fun _ _ => trivial

theorem Settles.text_apply (h : Settles F L G ws c) (legal : c.Legal ws) (id : ComponentId) :
    (c.apply ws).text id = ws.text id := by
  rw [text, text]
  rcases c.view_apply (fun c => c.buffer.text) (fun _ _ _ => rfl) legal id (.inr fun _ _ _ _ _ => rfl)
    with heq | ⟨e, rfl, heq⟩
  · exact heq
  · have hpage := (e.page_apply (ws.component id)).resolve_left h.not_isPage
    rw [Component.page, Component.page, Prod.mk.injEq, Prod.mk.injEq] at hpage
    rw [heq, hpage.2.1]

/-- Settling gets no file on but those that it may settle. -/
theorem Settles.progress_apply (h : Settles F L G ws c) (legal : c.Legal ws) (id : ComponentId) :
    ((c.apply ws).component id).progress = (ws.component id).progress ∨
      G id ∧ (c.apply ws).output? id = ws.output? id := by
  rcases c.file?_apply legal id with heq | ⟨hsize, kind, hnew, heq⟩ | ⟨-, g, rfl, heq⟩
  · exact .inl (by rw [Component.progress, heq, Component.progress])
  · -- a new component is no file
    left
    have hno := Emits.noFile (.settle (H := False) (D := fun _ => False) h.widen) hnew
    rw [Kind.isFile, Option.isSome_eq_false_iff, Option.isNone_iff_eq_none] at hno
    rw [Component.progress, heq, hno, Component.progress,
      ws.component_of_size_le (le_of_eq hsize.symm)]
    rfl
  · have hout : ∀ f, (g.apply f).output? = f.output? := fun f =>
      (g.output?_apply f).resolve_right (by
        rintro ⟨p, rfl, -⟩
        cases h with
        | load mem => cases mem)
    by_cases hG : G id
    · right
      refine ⟨hG, ?_⟩
      rw [output?, heq, Option.bind_map, output?]
      exact congrArg _ (funext hout)
    · left
      have hset : ∀ f, (g.apply f).settled = f.settled := fun f =>
        (g.settled_apply_or f).resolve_right (by
          rintro rfl
          cases h with
          | load mem => cases mem
          | settled mem => exact hG mem)
      rw [Component.progress, heq, Option.map_map, Component.progress]
      simp only [Function.comp_def, hout, hset]

theorem Settles.disk_apply (h : Settles F L G ws c) : (c.apply ws).disk = ws.disk := by
  cases h with
  | load mem => cases mem <;> rfl
  | _ => rfl

/-- **Settling keeps what is published**, if what it settles is decided and settled with success. -/
theorem Workspace.Published.settles (h : ws.Published S T start) (hs : ws.Sound)
    (hreach : Reach (Settles True False G) ws ws') (hstrides : Strides ws ws')
    (hG : ∀ id, G id → ws.Decided id ∧ ws'.Linked start id) : ws'.Published S T start := by
  obtain ⟨htext, hprogress, hdisk⟩ := hreach.invariant (I := fun ws' =>
    (∀ id, ws'.text id = ws.text id) ∧
    (∀ id, ws'.output? id = ws.output? id ∧ (¬G id → ws'.isSettled id = ws.isSettled id)) ∧
    ws'.disk = ws.disk) hs ⟨fun _ => rfl, fun _ => ⟨rfl, fun _ => rfl⟩, rfl⟩ (by
      rintro next c - legal hc ⟨htext, hprogress, hdisk⟩
      refine ⟨fun id => (hc.text_apply legal id).trans (htext id), fun id => ?_,
        hc.disk_apply.trans hdisk⟩
      obtain ⟨hout, hset⟩ := hprogress id
      rcases hc.progress_apply legal id with hsame | ⟨hG, hsame⟩
      · exact ⟨(output?_of_progress hsame).trans hout, fun hno =>
          (isSettled_of_progress hsame).trans (hset hno)⟩
      · exact ⟨hsame.trans hout, fun hno => absurd hG hno⟩)
  refine h.of_reach hs (hreach.mono fun _ _ hc => .settle hc.widen) hstrides (fun id => (hprogress id).1)
    hdisk (fun id => ?_) fun id => ?_
  · by_cases hmem : G id
    · exact .inr (hG id hmem)
    · exact .inl ((hprogress id).2 hmem)
  rw [htext]
  exact h.pages id

end Settles

/-! ## Writing on a page -/

/-- From `ws` to `ws'` the text `s` was put on the page of a component. -/
structure Appends (id : ComponentId) (s : String) (ws ws' : Workspace) : Prop where
  size : ws'.size = ws.size
  text : ∀ x, ws'.text x = if x = id ∧ id < ws.size then ws.text x ++ s else ws.text x
  progress : ∀ x, (ws'.component x).progress = (ws.component x).progress
  disk : ws'.disk = ws.disk
  strides : Strides ws ws'

section Appends

variable {S : Spelling → Prop} {T : ComponentId → Prop} {id : ComponentId} {s t : String}
  {start ws ws₁ ws₂ : Workspace}

theorem Appends.trans (h : Appends id s ws ws₁) (h' : Appends id t ws₁ ws₂) :
    Appends id (s ++ t) ws ws₂ where
  size := h'.size.trans h.size
  text x := by
    rw [h'.text, h.text, h.size]
    split
    · rw [String.append_assoc]
    · rfl
  progress x := (h'.progress x).trans (h.progress x)
  disk := h'.disk.trans h.disk
  strides := h.strides.trans h'.strides

theorem Appends.edit {e : Edit} (isPage : e.IsPage)
    (htext : ∀ c, (e.apply c).buffer.text = c.buffer.text ++ s)
    (hprogress : ∀ c, (e.apply c).progress = c.progress) :
    Appends id s ws ((Change.edit id e).apply ws) where
  size := size_modify ..
  text x := by
    rw [Workspace.text, Change.apply, component_modify_eq]
    split
    · exact htext _
    · rfl
  progress := ws.modify_keeps id Component.progress hprogress
  disk := rfl
  strides := .single (.page id isPage)

/-- An edit of a file that leaves alone how far it is puts no text on its page. -/
theorem Appends.editFile {g : FileEdit} (isPage : (Edit.file g).IsPage)
    (hg : ∀ f, (g.apply f).output? = f.output? ∧ (g.apply f).settled = f.settled) :
    Appends id "" ws ((Change.edit id (.file g)).apply ws) := by
  refine .edit isPage (fun c => String.append_empty.symm) fun c => ?_
  rw [Component.progress, Component.progress, Component.file?, Edit.apply, Kind.file?_mapFile,
    Option.map_map, Component.file?]
  simp only [Function.comp_def, hg]

theorem Appends.silent {other : ComponentId} (h : Appends id s ws ws₁) (h' : Appends other "" ws₁ ws₂) :
    Appends id s ws ws₂ where
  size := h'.size.trans h.size
  text x := by
    rw [h'.text, String.append_empty, ite_self]
    exact h.text x
  progress x := (h'.progress x).trans (h.progress x)
  disk := h'.disk.trans h.disk
  strides := h.strides.trans h'.strides

/-- **Lawful lines keep what is published.** -/
theorem Workspace.Published.appends (h : ws.Published S T start) (hs : ws.Sound)
    (hreach : Reach Publishes ws ws₁)
    (happends : Appends id s ws ws₁) (hlined : Lined (ws.Lawful S) s) : ws₁.Published S T start := by
  refine h.of_reach hs hreach happends.strides (fun x => output?_of_progress (happends.progress x))
    happends.disk (fun x => .inl (isSettled_of_progress (happends.progress x))) fun x => ?_
  rw [happends.text]
  split
  · exact (h.pages x).append hlined
  · exact h.pages x

end Appends

/-! ## Deciding a path and writing a header -/

namespace Workspace.Published

variable {S : Spelling → Prop} {T : ComponentId → Prop} {start ws : Workspace} {id : ComponentId}

/-- **A file whose path is decided is under way.** -/
theorem decide (h : ws.Published S T start) (hs : ws.Sound) (hundecided : ¬ws.Decided id) {p : Path}
    (hsuits : ws.Suits id p) :
    let ws' := (Change.edit id (.file (.output p))).apply ws
    ws'.Published S (fun x => x = id ∨ T x) start ∧ ws'.output? id = some p ∧ ws'.isSettled id = false := by
  intro ws'
  have hrun : Build.updateFile id (fun f => { f with output? := some p }) ws = .ok () ws' := rfl
  obtain ⟨hreach, hout, -, hpage⟩ := (Build.runs_decide (F := True) (L := False) (H := False)
    (D := fun _ => False) hundecided hsuits).of_ok hs hrun
  have hcomponent : ∀ x, ws'.component x = if x = id ∧ id < ws.size
      then (Edit.file (.output p)).apply (ws.component x) else ws.component x := ws.component_modify_eq id _
  have hother : ∀ x, x ≠ id → ws'.component x = ws.component x := fun x hx => by
    rw [hcomponent, if_neg fun h => hx h.1]
  -- lines stay lawful since no output that is decided changes
  have hlined : ∀ {s : String}, Lined (ws.Lawful S) s → Lined (ws'.Lawful S) s := fun hlined =>
    hlined.mono fun _ hline => hline.mono fun _ _ houtput => hreach.output?_eq hs houtput
  have hset : ∀ x, ws'.isSettled x = ws.isSettled x := fun x => by
    rw [isSettled, hcomponent]
    split
    · rw [Component.file?, Edit.apply, Kind.file?_mapFile, Option.any_map]
      rfl
    · rfl
  refine ⟨⟨hreach.charted_of_publishes hs h.toCharted, fun x => ?_, fun x hx => ?_, ?_, ?_, ?_, ?_⟩, hout,
    (hset id).trans (h.fresh id hundecided)⟩
  · have htext : ws'.text x = ws.text x := congrArg (fun page => page.2.1.text) (hpage x)
    rw [htext]
    exact hlined (h.pages x)
  · have hne : x ≠ id := by
      rintro rfl
      rw [Decided, hout] at hx
      exact hx rfl
    rw [Decided, output?, hother x hne] at hx
    exact (hset x).trans (h.fresh x hx)
  · intro x output houtput hx
    rw [not_or] at hx
    rw [output?, hother x hx.1] at houtput
    exact h.written x output houtput hx.2
  · intro x f output hf hlight houtput hx
    rw [not_or] at hx
    rw [hother x hx.1] at hf
    obtain ⟨hsettled, text, hread, htext⟩ := h.headers x f output hf hlight houtput hx.2
    exact ⟨(hset x).trans hsettled, text, hread, hlined htext⟩
  · exact h.strode.tail (.output hsuits)
  · exact fun x hsettled => (h.linked x (hset x ▸ hsettled)).strides (.single (.output hsuits))

/-- **A file whose header is on the disk is under way no longer.** -/
theorem finish (h : ws.Published S (fun x => x = id ∨ T x) start)
    (hwritten : ∀ output, ws.output? id = some output → ws.disk.isFile output = true)
    (hheader : ∀ f output, (ws.component id).file? = some f → Language.ofPath? f.path = some .light →
      f.output? = some output →
      ws.isSettled id = true ∧ ∃ text, ws.disk.readText output = .ok text ∧ Lined (ws.Lawful S) text) :
    ws.Published S T start where
  toCharted := h.toCharted
  pages := h.pages
  fresh := h.fresh
  written x output houtput hT := by
    by_cases hx : x = id
    · exact hwritten output (hx ▸ houtput)
    · exact h.written x output houtput fun hor => hor.elim hx hT
  headers x f output hf hlight houtput hT := by
    by_cases hx : x = id
    · subst hx
      exact hheader f output hf hlight houtput
    · exact h.headers x f output hf hlight houtput fun hor => hor.elim hx hT
  strode := h.strode
  linked := h.linked

/-- The disk can change, as long as files stay and what is in them is as before or of lawful lines. -/
theorem changeDisk (h : ws.Published S T start) (hs : ws.Sound) {d : Disk}
    (hstride : Stride ws ((Change.disk d).apply ws)) (hgrows : ws.disk.Grows d)
    (hread : ∀ p s, ws.disk.readText p = .ok s →
      d.readText p = .ok s ∨ ∃ t, d.readText p = .ok t ∧ Lined (ws.Lawful S) t) :
    ((Change.disk d).apply ws).Published S T start where
  toCharted := (Reach.single (.disk d) trivial (.disk hgrows)).charted_of_publishes hs h.toCharted
  pages := h.pages
  fresh := h.fresh
  written x output houtput hT := hgrows.isFile (h.written x output houtput hT)
  headers x f output hf hlight houtput hT := by
    obtain ⟨hsettled, text, htext, hlined⟩ := h.headers x f output hf hlight houtput hT
    refine ⟨hsettled, ?_⟩
    rcases hread output text htext with hsame | ⟨t, ht, hlinedt⟩
    · exact ⟨text, hsame, hlined⟩
    · exact ⟨t, ht, hlinedt⟩
  strode := h.strode.tail hstride
  linked x hsettled := (h.linked x hsettled).strides (.single hstride)

end Workspace.Published

end LightHeaders
