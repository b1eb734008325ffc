import LightHeaders.Proofs.CppText

set_option autoImplicit false

/-! # What writing headers does

Everything that writes text, from a single line up to the header of a file with the headers of the
files it includes, makes only changes of the class `Emits`. The functions follow one another as in
the model: lines, components, files, headers.

The bound `D` of the class is the set of files that are decided when the header is asked for. It
grows from one request to a request inside it, so a request inside another writes to fewer files.
-/

namespace LightHeaders

open Text Workspace

namespace Build

/-! ## Lines -/

section Lines

variable {F L H : Prop} {D : ComponentId → Prop} {ws : Workspace} {id : ComponentId}

theorem Runs.emits {α : Type} {m : Build α} {Q : α → Workspace → Prop}
    (h : Runs (Settles F L fun _ => True) m ws Q) : Runs (Emits F L H D) m ws Q :=
  h.mono fun _ _ h => .settle h

theorem makes_write (hopen : H → ws.Open D id) (text : String) :
    Makes (Emits F L H D) (write id text) ws :=
  Makes.edit (.text text) trivial (.page (.text text) hopen) rfl

theorem makes_endLine (hopen : H → ws.Open D id) (stamp : Bool) :
    Makes (Emits F L H D) (endLine id stamp) ws := by
  intro hs
  refine Runs.bind (makes_write hopen "\n") (fun _ ws₁ hs₁ hreach _ => ?_) hs
  refine Runs.get fun _ => ?_
  split
  · exact .pure trivial
  · next file hfile =>
    refine .bind (Makes.editFile .lineEnd (.page .lineEnd fun h => ?_) rfl)
      fun _ ws₂ _ _ _ => ?_
    · exact (hreach.open_of hs (hopen h)).file hs₁ hfile
    · split
      · exact .bind (Makes.change (.stamp _ _) rfl trivial (.stamp _ _))
          fun _ _ _ _ _ => .pure trivial
      · exact .pure trivial

theorem makes_line (hopen : H → ws.Open D id) (text : String) (stamp : Bool) :
    Makes (Emits F L H D) (do write id text; discard <| endLine id stamp) ws := by
  intro hs
  refine Runs.bind (makes_write hopen text) (fun _ _ _ hreach _ => ?_) hs
  exact Makes.discard (makes_endLine (fun h => hreach.open_of hs (hopen h)) stamp)

theorem makes_writePlainLine (hopen : H → ws.Open D id) (text : String) :
    Makes (Emits F L H D) (writePlainLine id text) ws :=
  makes_line hopen text false

theorem makes_handOn (hopen : H → ws.Open D id) : Makes (Emits F L H D) (handOn id) ws := by
  refine .component fun hs => ?_
  split
  · exact .pure trivial
  · next target htarget =>
    refine .bind (Makes.edit (.text _) trivial (.handOn _ ?_ ?_) rfl)
      fun _ _ _ _ _ => .pure trivial
    · exact fun _ hfiles => hfiles id target htarget
    · exact fun h hhome => (hopen h).file hs (hhome id target htarget).2

theorem makes_addIndented (hopen : H → ws.Open D id) (line : String) :
    Makes (Emits F L H D) (addIndented id line) ws := by
  refine .get fun hs => .bind (makes_write hopen _) fun _ _ _ hreach _ => ?_
  exact makes_line (fun h => hreach.open_of hs (hopen h)) line true

theorem makes_addClosing (hopen : H → ws.Open D id) : Makes (Emits F L H D) (addClosing id) ws := by
  refine .get fun hs => .bind (makes_write hopen _) fun _ _ _ hreach _ => ?_
  exact makes_writePlainLine (fun h => hreach.open_of hs (hopen h)) _

end Lines

/-! ## Components -/

section Components

variable {F L H : Prop} {D : ComponentId → Prop} {ws : Workspace} {id : ComponentId}
  {render : ComponentId → Build String} {includeFile : ComponentId → ComponentId → Build Unit}

/-- From `ws` on, `render` makes only changes of the class. -/
def RendersFrom (F L H : Prop) (D : ComponentId → Prop) (render : ComponentId → Build String)
    (ws : Workspace) : Prop :=
  ∀ ws', Reach (Emits F L H D) ws ws' → ∀ id, (H → ws'.Open D id) →
    Makes (Emits F L H D) (render id) ws'

/-- From `ws` on, `includeFile` makes only changes of the class. -/
def IncludesFrom (F L H : Prop) (D : ComponentId → Prop)
    (includeFile : ComponentId → ComponentId → Build Unit) (ws : Workspace) : Prop :=
  ∀ ws', Reach (Emits F L H D) ws ws' → ∀ file id, (H → ws'.Open D file) →
    Makes (Emits F L H D) (includeFile file id) ws'

variable {ws' : Workspace}

theorem RendersFrom.after (h : RendersFrom F L H D render ws) (hreach : Reach (Emits F L H D) ws ws') :
    RendersFrom F L H D render ws' :=
  fun _ hreach' => h _ (hreach.trans hreach')

theorem IncludesFrom.after (h : IncludesFrom F L H D includeFile ws) (hreach : Reach (Emits F L H D) ws ws') :
    IncludesFrom F L H D includeFile ws' :=
  fun _ hreach' => h _ (hreach.trans hreach')

theorem makes_addChildren (hopen : H → ws.Open D id) (hrender : RendersFrom F L H D render ws)
    (prune : Bool) : Makes (Emits F L H D) (addChildren render id prune) ws := by
  refine .get fun hs => Makes.forM fun child hchild ws₁ _ hreach₁ => ?_
  have hsame := hs.fileOf?_child (mem_childIds_of_mem_writtenChildren hchild)
    (isFile_of_mem_writtenChildren hchild)
  refine .component fun _ => .ite (fun _ => ?_) fun _ => .pure trivial
  refine .bind (hrender ws₁ hreach₁ child fun h =>
    hreach₁.open_of hs ((hopen h).of_fileOf? hsame)) fun text ws₂ _ hreach₂ _ => ?_
  exact makes_write (fun h => (hreach₁.trans hreach₂).open_of hs (hopen h)) text

/-- The text of a file: what it includes, what is lifted and what stands in it. -/
theorem makes_addFileText (hp : ws.Primed F L H) (hid : id < ws.size) (hopen : H → ws.Open D id)
    (hinclude : IncludesFrom F L H D includeFile ws) (hrender : RendersFrom F L H D render ws) :
    Makes (Emits F L H D) (addFileText includeFile render id) ws := by
  intro hs
  refine Runs.bind (makes_settle hp.toReady hid trivial).emits (fun _ ws₁ hs₁ hreach₁ _ => ?_) hs
  have hrest : ∀ ws', Reach (Emits F L H D) ws ws' → ws'.Sound → Makes (Emits F L H D)
      (do
        ((← get).lifted id).forM fun function => discard <| render function
        addChildren render id true) ws' := by
    intro ws' hreach hs'
    have hhere : H → ws'.Open D id := fun h => hreach.open_of hs (hopen h)
    refine Runs.get fun _ => Runs.bind (Makes.forM fun function hmem ws₂ _ hreach₂ => ?_)
      fun _ ws₃ _ hreach₃ _ => ?_
    · refine Makes.discard (hrender ws₂ (hreach.trans hreach₂) function fun h => ?_)
      exact hreach₂.open_of hs' ((hhere h).of_fileOf? (hs'.fileOf?_of_mem_lifted hmem).2)
    · exact makes_addChildren (fun h => hreach₃.open_of hs' (hhere h))
        (hrender.after (hreach.trans hreach₃)) true
  refine Runs.component fun _ => ?_
  split
  · exact hrest ws₁ hreach₁ hs₁
  · next file _ =>
    refine Runs.bind (Makes.forM fun library _ ws₂ _ hreach₂ => ?_) fun _ ws₂ _ hreach₂ _ => ?_
    · exact makes_writePlainLine
        (fun h => (hreach₁.trans hreach₂).open_of hs (hopen h)) _
    · refine Runs.bind (Makes.forM fun other _ ws₃ _ hreach₃ => ?_) fun _ ws₃ hs₃ hreach₃ _ => ?_
      · have hreach := (hreach₁.trans hreach₂).trans hreach₃
        exact hinclude ws₃ hreach id other fun h => hreach.open_of hs (hopen h)
      · exact hrest ws₃ ((hreach₁.trans hreach₂).trans hreach₃) hs₃

theorem makes_addOwnText (hp : ws.Primed F L H) (hopen : H → ws.Open D id)
    (hinclude : IncludesFrom F L H D includeFile ws) (hrender : RendersFrom F L H D render ws) {c : Component}
    (hone : F → c.kind.OneLine) (hfile : c.kind.isFile = true → id < ws.size) :
    Makes (Emits F L H D) (addOwnText includeFile render id c) ws := by
  refine .of_sound fun hs => ?_
  -- a namespace and a function differ in the head and in what is left out
  have hblock : ∀ (head : String) (prune : Bool) (ws' : Workspace), ws'.Sound →
      Reach (Emits F L H D) ws ws' → Makes (Emits F L H D)
        (do
          addIndented id head
          addChildren render id prune
          addClosing id) ws' := by
    intro head prune ws' hs' hreach
    have hhere : H → ws'.Open D id := fun h => hreach.open_of hs (hopen h)
    refine .bind (makes_addIndented hhere head) fun _ ws₁ _ hreach₁ _ => ?_
    refine .bind (makes_addChildren (fun h => hreach₁.open_of hs' (hhere h))
      (hrender.after (hreach.trans hreach₁)) prune) fun _ ws₂ _ hreach₂ _ => ?_
    exact makes_addClosing fun h => (hreach₁.trans hreach₂).open_of hs' (hhere h)
  unfold addOwnText
  cases hkind : c.kind with
  | file f =>
    rw [hkind] at hfile
    exact makes_addFileText hp (hfile rfl) hopen hinclude hrender
  | space => exact hblock _ true ws hs (.refl _ ws)
  | classType | structType => exact .throw _
  | function s =>
    rw [hkind] at hone
    exact .bind (isCode_cppHead hp.toReady id hone).emits
      fun head ws₁ hs₁ hreach₁ _ => hblock head false ws₁ hs₁ hreach₁
  | member m =>
    rw [hkind] at hone
    exact .bind (isCode_cppMember hp.toReady id hone).emits
      fun line _ _ hreach₁ _ => makes_addIndented (fun h => hreach₁.open_of hs (hopen h)) line
  | operation o =>
    rw [hkind] at hone
    dsimp only
    cases c.instruction? with
    | none => exact .pure trivial
    | some source =>
      exact .bind (isCode_cppStatement hp.toReady id source hone).emits
        fun line _ _ hreach₁ _ =>
          makes_addIndented (fun h => hreach₁.open_of hs (hopen h)) line

theorem rendersFrom_renderBelow (hs : ws.Sound) (hp : ws.Primed F L H)
    (hinclude : IncludesFrom F L H D includeFile ws) (hrender : RendersFrom F L H D render ws) :
    RendersFrom F L H D (renderBelow includeFile render) ws := by
  intro ws₁ hreach₁ id hopen
  refine .component fun hs₁ => ?_
  have hmark : Makes (Emits F L H D) (update id fun c => { c with written := true }) ws₁ :=
    Makes.edit .written trivial (.page .written hopen) rfl
  refine .bind hmark fun _ ws₂ hs₂ hreach₂ _ => ?_
  have hreach := hreach₁.trans hreach₂
  have hhere : H → ws₂.Open D id := fun h => hreach₂.open_of hs₁ (hopen h)
  refine .bind (makes_addOwnText (hreach.primed hs hp) hhere (hinclude.after hreach)
    (hrender.after hreach) (fun h => ?_) fun hfile => ?_) fun _ ws₃ _ hreach₃ _ => ?_
  · exact ((hreach₁.primed hs hp).plain h).kind id
  · exact hreach₂.lt (lt_size_of_isFile hfile)
  · exact makes_handOn fun h => hreach₃.open_of hs₂ (hhere h)

/-- What writing a component and those below it does, by induction on the levels. -/
theorem rendersFrom_renderWithin (hs : ws.Sound) (hp : ws.Primed F L H)
    (hinclude : IncludesFrom F L H D includeFile ws) (depth : Nat) :
    RendersFrom F L H D (renderWithin includeFile depth) ws := by
  induction depth with
  | zero => exact fun _ _ _ _ => .pure trivial
  | succ depth ih => exact rendersFrom_renderBelow hs hp hinclude ih

theorem rendersFrom_renderWith (hs : ws.Sound) (hp : ws.Primed F L H)
    (hinclude : IncludesFrom F L H D includeFile ws) :
    RendersFrom F L H D (renderWith includeFile) ws :=
  rendersFrom_renderBelow hs hp hinclude fun ws' hreach id hopen => .get fun _ =>
    rendersFrom_renderWithin hs hp hinclude ws'.capacity ws' hreach id hopen

end Components

/-! ## Headers -/

section Headers

variable {F L H : Prop} {D : ComponentId → Prop} {ws : Workspace} {id : ComponentId}
  {render header : ComponentId → Build String}

/-- What was written below a component is forgotten with it. By way of headers nothing was. -/
theorem makes_clearWithin (depth : Nat) (hopen : H → ws.Open D id)
    (hwritten : H → (ws.component id).written = false) :
    Makes (Emits F L H D) (clearWithin depth id) ws := by
  induction depth generalizing ws id with
  | zero => exact .pure trivial
  | succ depth ih =>
    refine .component fun hs => ?_
    refine .bind (Makes.edit .cleared trivial (.page .cleared hopen) rfl)
      fun _ ws₁ _ hreach₁ _ => ?_
    refine .bind (Makes.editFile .restart (.page .restart fun h =>
      hreach₁.open_of hs (hopen h)) rfl) fun _ ws₂ _ _ _ => ?_
    refine .ite (fun hc => ?_) fun _ => .pure trivial
    have hH : ¬H := fun h => by
      rw [hwritten h] at hc
      cases hc
    exact Makes.forM fun child _ ws₃ _ _ => ih (fun h => absurd h hH) fun h => absurd h hH

theorem makes_clear (hopen : H → ws.Open D id) (hwritten : H → (ws.component id).written = false) :
    Makes (Emits F L H D) (clear id) ws :=
  Runs.get fun _ => makes_clearWithin _ hopen hwritten

theorem runs_absolute {P : Change.Class} (p : Path) :
    Runs P (absolute p) ws fun q ws' => ws' = ws ∧ Path.absolute? ws.disk.current p = some q := by
  refine .get fun _ => ?_
  split
  · next q hq => exact .pure ⟨rfl, hq⟩
  · exact .throw _

theorem runs_take (output : Path) (owner : ProjectId) :
    Runs (Emits F L H D)
      (do
        modify fun ws =>
          if (ws.taken.lookup output).isSome then ws
          else { ws with taken := ws.taken ++ [(output, owner)] }
        return output) ws fun _ ws' => ∃ taken, ws' = { ws with taken } := by
  intro _
  have hrun : (do
      modify fun ws =>
        if (ws.taken.lookup output).isSome then ws
        else { ws with taken := ws.taken ++ [(output, owner)] }
      return output : Build Path) ws = .ok output (if (ws.taken.lookup output).isSome then ws
        else (Change.take output owner).apply ws) := rfl
  rw [hrun]
  cases hlookup : ws.taken.lookup output with
  | some other =>
    rw [Option.isSome_some, if_pos rfl]
    exact ⟨.refl _ ws, ws.taken, rfl⟩
  | none =>
    rw [Option.isSome_none, if_neg Bool.false_ne_true]
    exact ⟨.single (.take output owner) trivial (.take owner hlookup), _, rfl⟩

theorem runs_takeOutput (id : ComponentId) (source : Path) :
    Runs (Emits F L H D) (chooseOutput id source) ws fun output ws' =>
      (∃ taken, ws' = { ws with taken }) ∧ ws'.Chosen id source output := by
  suffices htake : Runs (Emits F L H D) (chooseOutput id source) ws fun _ ws' =>
      ∃ taken, ws' = { ws with taken } from
    htake.given.weaken fun _ _ _ _ h => ⟨h.2, ws, h.1⟩
  refine .get fun _ => ?_
  split
  · exact .throw _
  · next owner howner =>
    refine .bind (runs_absolute _) ?_
    rintro plain ws - - ⟨rfl, -⟩
    refine .ite (fun _ => ?_) fun _ => runs_take plain owner
    refine .bind (runs_absolute _) ?_
    rintro output ws - - ⟨rfl, -⟩
    exact runs_take output owner

/-- Choosing the path of a header touches no component, and the path is one that the file can get. -/
theorem runs_chooseOutput (hundecided : ¬ws.Decided id) {source : Path} (hlight : ws.IsLight id source) :
    Runs (Emits F L H D) (chooseOutput id source) ws fun output ws' =>
      (∃ taken, ws' = { ws with taken }) ∧ ¬ws'.Decided id ∧ ws'.Suits id output := by
  refine (runs_takeOutput id source).weaken ?_
  rintro output _ - - ⟨⟨taken, rfl⟩, hchosen⟩
  exact ⟨⟨taken, rfl⟩, hundecided, hchosen.suits hlight⟩

theorem makes_changeDisk {write : Disk → Except Fault Disk}
    (hwrite : ∀ {d d' : Disk}, write d = .ok d' → d.Grows d') (failure : Fault → Failure) :
    Makes (Emits F L H D) (change write failure) ws := by
  refine .bind Runs.ask ?_
  rintro d _ - - ⟨rfl, hd⟩
  exact Makes.change (.disk d) rfl trivial (.disk (hwrite hd))

theorem makes_store (output : Path) (text : String) :
    Makes (Emits F L H D)
      (do
        match output.parent? with
        | none => pure ()
        | some dir => change (·.makeDirectories dir) (.unusable dir)
        change (·.writeText output text) (.unusable output)) ws := by
  split
  · exact makes_changeDisk Disk.grows_of_writeText _
  · exact .bind (makes_changeDisk (fun h => (Disk.grows_of_makeDirectories h).1) _)
      fun _ _ _ _ _ => makes_changeDisk Disk.grows_of_writeText _

theorem makes_writeHeader (hopen : H → ws.Open D id) (hwritten : H → (ws.component id).written = false)
    (hrender : RendersFrom F L H D render ws)
    (output : Path) : Makes (Emits F L H D) (writeHeader render id output) ws := by
  refine .of_sound fun hs => ?_
  refine .bind (makes_clear hopen hwritten) fun _ ws₁ _ hreach₁ _ => ?_
  refine .bind (hrender ws₁ hreach₁ id fun h => hreach₁.open_of hs (hopen h))
    fun text _ _ _ _ => ?_
  exact makes_store output text

variable {file : ComponentId} {p : Path}

theorem runs_decide (hundecided : ¬ws.Decided id) (hsuits : ws.Suits id p) :
    Runs (Emits F L H D) (updateFile id fun f => { f with output? := some p }) ws fun _ ws' =>
      ws'.output? id = some p ∧ ws'.journal = ws.journal ∧
        ∀ z, (ws'.component z).page = (ws.component z).page := by
  refine .change (.edit id (.file (.output p))) rfl trivial (.output p hundecided hsuits)
    ⟨?_, rfl, fun z => ?_⟩
  · have hfile := hsuits.isFile
    have hlt := lt_size_of_isFile hfile
    rw [Workspace.output?, Change.apply, component_modify_eq, if_pos ⟨rfl, hlt⟩]
    rw [Workspace.isFile, Workspace.kind, Kind.isFile] at hfile
    obtain ⟨f, hf⟩ := Option.isSome_iff_exists.mp hfile
    simp [Edit.apply, Component.file?, hf, FileEdit.apply]
  · refine ws.modify_keeps id Component.page (fun c => ?_) z
    exact ((Edit.file (.output p)).page_apply c).resolve_left (by rintro ⟨⟩)

/-- A header is begun once: what was begun before is decided. -/
theorem legal_begun (hs : ws.Sound) (hundecided : ¬ws.Decided id) (hsuits : ws.Suits id p) :
    (Change.record (.begun id)).Legal ((Change.edit id (.file (.output p))).apply ws) := by
  have hrun : updateFile id (fun f => { f with output? := some p }) ws
      = .ok () ((Change.edit id (.file (.output p))).apply ws) := rfl
  obtain ⟨-, hout, -⟩ := (runs_decide (F := False) (L := False) (H := False) (D := fun _ => False)
    hundecided hsuits).of_ok hs hrun
  exact ⟨Event.marked_begun_iff.mpr (decided_of_output? hout), fun hmem =>
    hundecided (Event.marked_begun_iff.mp (hs.journal.marked _ hmem))⟩

theorem runs_beginHeader (hundecided : ¬ws.Decided id) (hsuits : ws.Suits id p) :
    Runs (Emits F L H D) (beginHeader id p) ws fun _ ws' =>
      ws'.output? id = some p ∧ ∀ z, (ws'.component z).page = (ws.component z).page := by
  refine .of_sound fun hs => ?_
  refine .bind (runs_decide hundecided hsuits).given ?_
  rintro _ ws₁ _ _ ⟨hrun, hout, _, hpage⟩
  cases hrun
  exact .change (.record (.begun id)) rfl (legal_begun hs hundecided hsuits) (.begun id) ⟨hout, hpage⟩

/-- The path of a header is decided before anything of the file is written. -/
theorem runs_chosen (hp : ws.Primed F L H) (hundecided : ¬ws.Decided id) (hD : ¬D id) {source : Path}
    (hlight : ws.IsLight id source) {α : Type} {k : Path → Build α} {Q : α → Workspace → Prop}
    (hk : ∀ output ws', Reach (Emits F L H D) ws ws' → ws'.Sound → ws'.output? id = some output →
      ws'.Open D id → (H → (ws'.component id).written = false) → Runs (Emits F L H D) (k output) ws' Q) :
    Runs (Emits F L H D)
      (do
        let output ← chooseOutput id source
        beginHeader id output
        k output) ws Q := by
  refine .of_sound fun hs => ?_
  refine .bind (runs_chooseOutput hundecided hlight) ?_
  rintro output ws₁ hs₁ hreach₁ ⟨-, hundecided₁, hsuits⟩
  have hfile₁ := hsuits.isFile
  have hclean : H → (ws₁.component id).written = false := fun h =>
    (((hreach₁.primed hs hp).tidy h).clean.of_undecided hs₁ hundecided₁ (hs₁.fileOf?_self hfile₁)).1
  refine .bind (runs_beginHeader hundecided₁ hsuits) ?_
  rintro _ ws₂ hs₂ hreach₂ ⟨hout, hpage⟩
  have hwritten : (ws₂.component id).written = (ws₁.component id).written :=
    congrArg Prod.fst (hpage id)
  have hopen : ws₂.Open D id := by
    refine ⟨id, hs₂.fileOf?_self ?_, decided_of_output? hout, hD⟩
    exact (hreach₂.extension.isFile (lt_size_of_isFile hfile₁)).trans hfile₁
  exact hk output ws₂ (hreach₁.trans hreach₂) hs₂ hout hopen fun h => hwritten.trans (hclean h)

/-- **The header of a file.** Its path is decided, and it is spelled the way of its project. -/
theorem runs_headerWith (hp : ws.Primed F L H) (hid : id < ws.size)
    (hrender : RendersFrom F L H ws.Decided render ws) :
    Runs (Emits F L H ws.Decided) (headerWith render id) ws fun path ws' =>
      ∃ output, ws'.output? id = some output ∧ path = (ws.spellingOf id).spell output := by
  refine .of_sound fun hs => .get fun _ => .component fun _ => ?_
  split
  · next output houtput => exact .pure ⟨output, houtput, rfl⟩
  · next houtput =>
    have hundecided : ¬ws.Decided id := not_decided_of_output? houtput
    have hload : Runs (Emits F L H ws.Decided) (load id) ws fun _ ws' => ¬ws'.Decided id :=
      Runs.emits ((makes_loadOnce hp.toReady hid).weaken fun _ _ _ hreach _ =>
        hreach.undecided hs hid hundecided)
    refine .bind hload fun _ ws₁ hs₁ hreach₁ hundecided₁ => ?_
    refine .component fun _ => ?_
    split
    · exact .get fun _ => .throw _
    · next file hfile =>
      split
      · exact .throw _
      · next hlanguage =>
        refine .bind (runs_decide hundecided₁ ⟨file, hfile, .inl ⟨hlanguage, rfl⟩⟩)
          fun _ ws₂ _ _ hout => ?_
        exact .pure ⟨file.path, hout.1, rfl⟩
      · next hlanguage =>
        refine runs_chosen (hreach₁.primed hs hp) hundecided₁ hundecided ⟨file, hfile, hlanguage, rfl⟩
          fun output ws₂ hreach₂ hs₂ hout hopen hwritten => ?_
        refine .bind (makes_writeHeader (fun _ => hopen) hwritten
          (hrender.after (hreach₁.trans hreach₂)) output) fun _ ws₃ _ hreach₃ _ => ?_
        exact .pure ⟨output, hreach₃.output?_eq hs₂ hout, rfl⟩

/-- From `ws` on, `header` makes only changes of the class. -/
def HeadersFrom (F L H : Prop) (D : ComponentId → Prop) (header : ComponentId → Build String)
    (ws : Workspace) : Prop :=
  ∀ ws', Reach (Emits F L H D) ws ws' → ∀ id, id < ws'.size →
    Makes (Emits F L H D) (header id) ws'

theorem makes_headerAroundWith (hheader : HeadersFrom F L H D header ws) (id : ComponentId) :
    Makes (Emits F L H D) (headerAroundWith header id) ws := by
  refine .get fun _ => ?_
  split
  · exact .throw _
  · next file hfile =>
    exact hheader ws (.refl _ ws) file
      (lt_size_of_isFile (isFile_of_fileOf? hfile))

theorem makes_includePath (hopen : H → ws.Open D file) (path : String) :
    Makes (Emits F L H D)
      (do
        if (← component file).file?.any (·.included.contains path) then return path
        needReader .cpp
        writePlainLine file ("#include \"" ++ Literal.escape path ++ "\"")
        updateFile file fun f => { f with included := f.included ++ [path] }
        return path) ws := by
  refine .component fun hs => .ite (fun _ => .pure trivial) fun _ => ?_
  refine .bind Runs.needReader ?_
  rintro _ _ - - rfl
  refine .bind (makes_writePlainLine hopen _) fun _ ws₁ _ hreach₁ _ => ?_
  exact .bind (Makes.editFile (.included path) (.page (.included path) fun h =>
    hreach₁.open_of hs (hopen h)) rfl) fun _ _ _ _ _ => .pure trivial

theorem makes_includeWith (hheader : HeadersFrom F L H D header ws) (hopen : H → ws.Open D file)
    (id : ComponentId) :
    Makes (Emits F L H D) (includeWith header file id) ws := by
  refine .of_sound fun hs => ?_
  refine .bind (makes_headerAroundWith hheader id) fun path ws₁ _ hreach₁ _ => ?_
  exact makes_includePath (fun h => hreach₁.open_of hs (hopen h)) path

/-- **The header of a file**, with those of the files it includes, by induction on how many requests
can be inside one another. -/
theorem runs_headerWithin (depth : Nat) (hp : ws.Primed F L H) (hid : id < ws.size) :
    Runs (Emits F L H ws.Decided) (headerWithin depth id) ws fun path ws' =>
      ∃ output, ws'.output? id = some output ∧ path = (ws.spellingOf id).spell output := by
  induction depth generalizing ws id with
  | zero => exact runs_headerWith hp hid fun _ _ _ _ => .pure trivial
  | succ depth ih =>
    refine .of_sound fun hs => runs_headerWith hp hid (rendersFrom_renderWith hs hp ?_)
    intro ws₁ hreach₁ file other hopen
    refine Makes.discard (makes_includeWith (fun ws₂ hreach₂ id hid => ?_) hopen other)
    -- what is decided by now stays out of reach of the request
    have hreach := hreach₁.trans hreach₂
    exact (ih (hreach.primed hs hp) hid).makes.mono
      (Emits.mono fun other hother => hreach.decided hs hother)

theorem runs_header (hp : ws.Primed F L H) (hid : id < ws.size) :
    Runs (Emits F L H ws.Decided) (Build.header id) ws fun path ws' =>
      ∃ output, ws'.output? id = some output ∧ path = (ws.spellingOf id).spell output :=
  Runs.get fun _ => runs_headerWithin _ hp hid

theorem headersFrom_header (hs : ws.Sound) (hp : ws.Primed F L H)
    (hD : ∀ file, D file → ws.Decided file) : HeadersFrom F L H D Build.header ws :=
  fun _ hreach _ hid => (runs_header (hreach.primed hs hp) hid).makes.mono
    (Emits.mono fun file hfile => hreach.decided hs (hD file hfile))

theorem makes_headerAround (hp : ws.Primed F L H) (id : ComponentId) :
    Makes (Emits F L H ws.Decided) (headerAround id) ws :=
  Runs.of_sound fun hs => makes_headerAroundWith (headersFrom_header hs hp fun _ h => h) id

theorem makes_includeHeader (hp : ws.Primed F L H) (hopen : H → ws.Open ws.Decided file) (id : ComponentId) :
    Makes (Emits F L H ws.Decided) (includeHeader file id) ws :=
  Runs.of_sound fun hs => makes_includeWith (headersFrom_header hs hp fun _ h => h) hopen id

theorem makes_render (hp : ws.Primed F L H) (hopen : H → ws.Open ws.Decided id) :
    Makes (Emits F L H ws.Decided) (Build.render id) ws := by
  refine .of_sound fun hs => rendersFrom_renderWith hs hp ?_ ws (.refl _ ws) id hopen
  intro ws₁ hreach₁ file other hopen
  exact Makes.discard (makes_includeWith (headersFrom_header (hreach₁.sound hs)
    (hreach₁.primed hs hp) fun _ h => hreach₁.decided hs h) hopen other)

end Headers

end Build

end LightHeaders
