import LightHeaders.Proofs.Owners
import LightHeaders.Proofs.RenderLevels

set_option autoImplicit false

/-! # Headers that include one another come to an end

The header of a file is written with those of the files it includes, and these can include it. Its path
is decided before its text is begun, and is never taken back. So each header that is written inside
another leaves fewer files to be decided, and each text is begun once (`History.header_recursion`).

`headerUnrolled bottom depth` and `renderUnrolled bottom depth` are that recursion as it stands, with no
bound of its own: `depth` calls deep it is replaced by `bottom`. That it comes to an end is to say that
`bottom` is never asked for, if only `depth` is great enough (`Build.Approaches`).
-/

namespace LightHeaders

open Workspace

namespace Build

mutual

/-- The path of the header of a file, with `bottom` for what is `depth` calls below. -/
def headerUnrolled (bottom : ComponentId → Build String) : Nat → ComponentId → Build String
  | 0, id => bottom id
  | depth + 1, id => headerWith (renderUnrolled bottom depth) id

/-- Writes a component, with `bottom` for what is `depth` calls below. -/
def renderUnrolled (bottom : ComponentId → Build String) : Nat → ComponentId → Build String
  | 0, id => bottom id
  | depth + 1, id =>
    renderBelow (fun file id => discard <| includeWith (headerUnrolled bottom depth) file id)
      (renderUnrolled bottom depth) id

end

end Build

/-! ## Files that are to be decided -/

section Undecided

variable {F L H : Prop} {D : ComponentId → Prop} {ws ws' : Workspace}

theorem Emits.isFile_apply {c : Change} (h : Emits F L H D ws c) (legal : c.Legal ws)
    (id : ComponentId) : (c.apply ws).isFile id = ws.isFile id := by
  rcases c.view_apply (fun c => c.kind.isFile) (fun _ _ _ => rfl) legal id
    (.inr fun _ _ _ _ hkind => h.noFile hkind) with hsame | ⟨e, -, heq⟩
  · exact hsame
  · rw [isFile, kind, heq, Edit.apply_isFile]
    rfl

theorem Reach.isFile_eq (h : Reach (Emits F L H D) ws ws') (hs : ws.Sound) (id : ComponentId) :
    ws'.isFile id = ws.isFile id :=
  h.invariant (I := fun ws' => ws'.isFile id = ws.isFile id) hs rfl
    fun _ _ _ legal hc heq => (hc.isFile_apply legal id).trans heq

theorem Component.any_isNone_output? (ws : Workspace) (id : ComponentId) :
    ((ws.component id).file?.any (·.output?.isNone)) = true ↔
      ws.isFile id = true ∧ ¬ws.Decided id := by
  rw [Workspace.isFile, Workspace.kind, Kind.isFile, Workspace.Decided, Workspace.output?,
    Component.file?]
  cases (ws.component id).kind.file? with
  | none | some => simp

theorem Reach.undecided_before (h : Reach (Emits F L H D) ws ws') (hs : ws.Sound) (id : ComponentId)
    (hid : (ws'.component id).file?.any (·.output?.isNone) = true) :
    (ws.component id).file?.any (·.output?.isNone) = true := by
  rw [Component.any_isNone_output?] at hid ⊢
  exact ⟨(h.isFile_eq hs id).symm.trans hid.1, fun hdecided => hid.2 (h.decided hs hdecided)⟩

theorem Reach.undecided_le (h : Reach (Emits F L H D) ws ws') (hs : ws.Sound) :
    ws'.undecided ≤ ws.undecided :=
  countP_components_le rfl (h.undecided_before hs)

theorem Reach.undecided_lt (h : Reach (Emits F L H D) ws ws') (hs : ws.Sound) {id : ComponentId}
    (hfile : ws.isFile id = true) (hundecided : ¬ws.Decided id) (hdecided : ws'.Decided id) :
    ws'.undecided < ws.undecided := by
  refine countP_components_lt rfl (h.undecided_before hs)
    ((Component.any_isNone_output? ws id).mpr ⟨hfile, hundecided⟩) ?_
  rw [← Bool.not_eq_true, Component.any_isNone_output?]
  exact fun hboth => hboth.2 hdecided

end Undecided

namespace Build

/-! ## Components -/

section Components

variable {ws : Workspace} {id : ComponentId} {render : Cut → ComponentId → Build String}
  {limRender : ComponentId → Build String} {includeFile : Cut → ComponentId → ComponentId → Build Unit}
  {limInclude : ComponentId → ComponentId → Build Unit}

/-- **Levels beyond the capacity make no difference**: a child has a greater number than its parent, and
what is made on the way is paid for. -/
theorem approaches_renderWithin (depth : Nat) (hid : id < ws.size) (hfile : ws.isFile id = false)
    (hdepth : ws.capacity ≤ id + depth) :
    Approaches True (fun cut => renderUnrolled cut.bottom cut.depth id)
      (renderWithin limInclude depth id) ws := by
  induction depth generalizing ws id with
  | zero => exact absurd hdepth (Nat.not_le_of_lt (lt_of_lt_of_le hid (Nat.le_add_right _ _)))
  | succ depth ih =>
    refine .of_succ (m := (renderUnrolled · · id)) (approaches_renderBelow
      (fun ws' hmeanwhile child hgreater hlt hno => ?_) fun h => ?_)
    · have hcapacity := (hmeanwhile.costs trivial).capacity
      have hnext := Nat.succ_le_of_lt (hgreater trivial)
      exact ih hlt hno (by omega)
    · rw [hfile] at h
      cases h

theorem approaches_renderInside {C : Prop} (hid : id < ws.size) (hfile : ws.isFile id = false) :
    Approaches C (fun cut => renderUnrolled cut.bottom cut.depth id) (renderInside limInclude id) ws :=
  fun hs => (approaches_renderWithin ws.capacity hid hfile (Nat.le_add_left _ _)).mono
    (fun _ => trivial) hs

/-- The text of a file: what it includes can be whole headers. -/
theorem approaches_addFileText (hfile : ws.isFile id = true)
    (hrender : ApproachesBelow False render limRender id ws)
    (hinclude : ∀ ws', Reach Writes ws ws' → ∀ other,
      Approaches False (fun cut => includeFile cut id other) (limInclude id other) ws') :
    Approaches False (fun cut => addFileText (includeFile cut) (render cut) id)
      (addFileText limInclude limRender id) ws := by
  have hid := lt_size_of_isFile hfile
  -- what follows the includes, whether or not there were any
  have hrest : ∀ ws', Meanwhile False ws ws' → Approaches False
      (fun cut => do
        ((← get).lifted id).forM fun function => discard <| render cut function
        addChildren (render cut) id true)
      (do
        ((← get).lifted id).forM fun function => discard <| limRender function
        addChildren limRender id true) ws' := by
    intro ws' hmeanwhile
    have hfile' : ws'.isFile id = true := (hmeanwhile.reach.extension.isFile hid).trans hfile
    refine Approaches.get fun hs' => ?_
    refine (Approaches.forM (f := fun cut function => discard <| render cut function)
      fun function hmem ws₁ hs₁ hmore => ?_).bind
        (k := fun cut _ => addChildren (render cut) id true)
        fun _ ws₁ _ hmore _ => ?_
    · obtain ⟨hno, hsame⟩ := hs'.fileOf?_of_mem_lifted hmem
      have hlt : function < ws'.size :=
        hs'.lt_size_of_fileOf? (hsame.trans (hs'.fileOf?_self hfile'))
      exact (hrender ws₁ (hmeanwhile.trans hmore) function False.elim (hmore.reach.lt hlt)
        ((hmore.reach.extension.isFile hlt).trans hno)).discard
    · exact approaches_addChildren (hrender.after (hmeanwhile.trans hmore)) true
  refine (Approaches.of_makes (makes_settle (primed_false ws).toReady hid trivial).emits).bind
    (k := fun cut _ => _) fun _ ws₁ _ hthen₁ _ => ?_
  refine .component ?_
  cases (ws₁.component id).file? with
  | none => exact hrest ws₁ hthen₁
  | some file =>
    dsimp only
    refine (Approaches.of_makes (Makes.forM fun library _ _ _ _ =>
      makes_writePlainLine False.elim _)).bind (k := fun cut _ => _)
        fun _ ws₂ _ hthen₂ _ => ?_
    refine (Approaches.forM (f := fun cut => includeFile cut id)
      fun other _ ws₃ _ hthen₃ => ?_).bind (k := fun cut _ => _)
        fun _ ws₃ _ hthen₃ _ => ?_
    · exact hinclude ws₃ ((hthen₁.trans hthen₂).trans hthen₃).reach other
    · exact hrest ws₃ ((hthen₁.trans hthen₂).trans hthen₃)

end Components

/-! ## Headers -/

section Headers

variable {ws : Workspace} {id : ComponentId}
  {render header : Cut → ComponentId → Build String}
  {limRender limHeader : ComponentId → Build String}

/-- The text of a header is made before it goes to the disk. -/
theorem approaches_writeHeader (output : Path) (hrender : ∀ ws', Reach Writes ws ws' →
      Approaches False (fun cut => render cut id) (limRender id) ws') :
    Approaches False (fun cut => writeHeader (render cut) id output)
      (writeHeader limRender id output) ws := by
  have hclear : Makes Writes (clear id) ws := makes_clear False.elim False.elim
  refine (Approaches.of_makes hclear).bind (k := fun cut _ => _)
    fun _ ws₁ _ hthen _ => ?_
  refine (hrender ws₁ hthen.reach).bind (k := fun _ _ => _) fun text _ _ _ _ => .of_makes ?_
  exact makes_store output text

/-- The path of a header is decided before its text is made, and then one file less is to be decided. -/
theorem approaches_chosen (hundecided : ¬ws.Decided id) {source : Path} (hlight : ws.IsLight id source)
    {α : Type} {k : Cut → Path → Build α} {limk : Path → Build α}
    (hk : ∀ output ws', Reach Writes ws ws' → ws'.undecided < ws.undecided →
      Approaches False (fun cut => k cut output) (limk output) ws') :
    Approaches False
      (fun cut => do
        let output ← chooseOutput id source
        beginHeader id output
        k cut output)
      (do
        let output ← chooseOutput id source
        beginHeader id output
        limk output) ws := by
  intro hs
  have hchoose := runs_chooseOutput (F := False) (L := False) (H := False) (D := fun _ => False)
    hundecided hlight
  refine (Approaches.of_makes hchoose.makes).bind (k := fun cut output => do
    beginHeader id output
    k cut output) (fun output ws₁ hs₁ hthen₁ hrun₁ => ?_) hs
  obtain ⟨-, -, hundecided₁, hsuits⟩ := hchoose.of_ok hs hrun₁
  have hbegin := runs_beginHeader (F := False) (L := False) (H := False) (D := fun _ => False)
    hundecided₁ hsuits
  refine (Approaches.of_makes hbegin.makes).bind (k := fun cut _ => k cut output)
    fun _ ws₂ _ hthen₂ hrun₂ => hk output ws₂ (hthen₁.trans hthen₂).reach ?_
  exact (hthen₁.trans hthen₂).reach.undecided_lt hs hlight.isFile hundecided
    (decided_of_output? (hbegin.of_ok hs₁ hrun₂).2.1)

/-- **One step into the recursion**: where the text of a file is written, the file is decided. -/
theorem approaches_headerWith (render : Cut → ComponentId → Build String)
    (limRender : ComponentId → Build String) (hid : id < ws.size)
    (hrender : ∀ ws', Reach Writes ws ws' → ws'.undecided < ws.undecided →
      Approaches False (fun cut => render cut id) (limRender id) ws') :
    Approaches False (fun cut => headerWith (render cut) id) (headerWith limRender id) ws := by
  refine Approaches.get fun hs => .component ?_
  cases houtput : (ws.component id).file?.bind SourceFile.output? with
  | some output => exact .pure _
  | none =>
    have hundecided : ¬ws.Decided id := not_decided_of_output? houtput
    have hload := makes_loadOnce (G := fun _ => True) (primed_false ws).toReady hid
    refine (Approaches.of_makes hload.emits).bind (k := fun cut _ => _)
      fun _ ws₁ hs₁ ⟨hreach₁, _⟩ hrun => ?_
    have hundecided₁ : ¬ws₁.Decided id :=
      (hload.of_ok hs hrun).1.undecided hs hid hundecided
    refine .component ?_
    cases hfile : (ws₁.component id).file? with
    | none => exact Approaches.get (k := fun _ _ => throw _) fun _ => .throw _
    | some file =>
      dsimp only
      cases hlanguage : file.language? with
      | none => exact .throw _
      | some language =>
        cases language with
        | cpp =>
          exact .of_makes (.bind
            (runs_decide hundecided₁ ⟨file, hfile, .inl ⟨hlanguage, rfl⟩⟩).makes
            fun _ _ _ _ _ => .pure trivial)
        | light =>
          refine approaches_chosen hundecided₁ ⟨file, hfile, hlanguage, rfl⟩
            fun output ws₂ hreach₂ hlt => ?_
          refine (approaches_writeHeader output fun ws₃ hreach₃ => ?_).bind
            (k := fun _ _ => _) fun _ _ _ _ _ => .pure _
          have hreach := (hreach₁.trans hreach₂).trans hreach₃
          -- fewer files are undecided since this one's path is chosen
          refine hrender ws₃ hreach ?_
          have hthen := hreach₃.undecided_le (hreach₂.sound hs₁)
          have hbefore := hreach₁.undecided_le hs
          omega

theorem approaches_includeWith (file : ComponentId)
    (hheader : ∀ ws', Reach Writes ws ws' → ∀ other, other < ws'.size →
      Approaches False (fun cut => header cut other) (limHeader other) ws')
    (other : ComponentId) :
    Approaches False (fun cut => includeWith (header cut) file other)
      (includeWith limHeader file other) ws := by
  have haround : Approaches False (fun cut => headerAroundWith (header cut) other)
      (headerAroundWith limHeader other) ws := by
    refine Approaches.get fun _ => ?_
    cases hfile : ws.fileOf? other with
    | none => exact .throw _
    | some around =>
      exact hheader ws (.refl _ ws) around
        (lt_size_of_isFile (isFile_of_fileOf? hfile))
  exact haround.bind (k := fun _ path => _) fun path _ _ _ _ =>
    .of_makes (makes_includePath False.elim path)

theorem approaches_renderWith (hid : id < ws.size)
    (hheader : ∀ ws', Reach Writes ws ws' → ∀ other, other < ws'.size →
      Approaches False (fun cut => headerUnrolled cut.bottom cut.depth other) (limHeader other) ws') :
    Approaches False (fun cut => renderUnrolled cut.bottom cut.depth id)
      (renderWith (fun file other => discard <| includeWith limHeader file other) id) ws := by
  refine .of_succ (m := (renderUnrolled · · id)) (approaches_renderBelow
    (fun ws' _ child _ hlt hno => approaches_renderInside hlt hno) fun hfile ws₁ hthen => ?_)
  refine approaches_addFileText ((hthen.reach.extension.isFile hid).trans hfile)
    (fun ws' _ child _ hlt hno => approaches_renderInside hlt hno) fun ws₂ hreach other => ?_
  exact (approaches_includeWith id (fun ws₃ hmore =>
    hheader ws₃ ((hthen.reach.trans hreach).trans hmore)) other).discard

/-- **The recursion comes to an end**, by induction on how many files are to be decided. -/
theorem approaches_headerWithin (bound : Nat) (hid : id < ws.size) (hbound : ws.undecided ≤ bound) :
    Approaches False (fun cut => headerUnrolled cut.bottom cut.depth id) (headerWithin bound id) ws := by
  induction bound generalizing ws id with
  | zero =>
    refine .of_succ (m := (headerUnrolled · · id)) (approaches_headerWith _ _ hid fun ws' _ hlt => ?_)
    exact absurd (lt_of_lt_of_le hlt hbound) (Nat.not_lt_zero _)
  | succ bound ih =>
    refine .of_succ (m := (headerUnrolled · · id)) (approaches_headerWith _ _ hid fun ws₁ hreach₁ hlt => ?_)
    intro hs₁
    refine approaches_renderWith (hreach₁.lt hid) (fun ws₂ hreach₂ other hother => ih hother ?_) hs₁
    have hle := hreach₂.undecided_le hs₁
    omega

theorem approaches_header (hid : id < ws.size) :
    Approaches False (fun cut => headerUnrolled cut.bottom cut.depth id) (Build.header id) ws :=
  approaches_headerWithin ws.undecided hid le_rfl

theorem approaches_render (hid : id < ws.size) :
    Approaches False (fun cut => renderUnrolled cut.bottom cut.depth id) (Build.render id) ws :=
  approaches_renderWith hid fun _ _ _ hother => approaches_header hother

theorem header_of_decided {output : Path} (h : ws.output? id = some output) :
    Build.header id ws = .ok ((ws.spellingOf id).spell output) ws := by
  have hwith : ∀ render, headerWith render id ws = .ok ((ws.spellingOf id).spell output) ws := by
    intro render
    rw [output?] at h
    rw [headerWith, bind_get, bind_component, h]
    rfl
  show headerWithin ws.undecided id ws = _
  cases ws.undecided with
  | zero | succ => exact hwith _

end Headers

end Build

/-! ## Every history -/

/-- **Headers that include one another come to an end, and none is written twice.** In every history in
which files are made only for what is at a path: the requests inside one another are bounded, whatever
is done beyond the bound; whatever calls follow, the text of a header is begun at most once, even if it
fails; and an output path that is decided is never changed or taken back, so that the same path is given
again and nothing else is done. -/
theorem History.header_recursion {A : Workspace → Call → Prop} {ws : Workspace} (h : History A ws)
    (hA : ∀ ws c, A ws c → c.Filed) :
    (∀ id < ws.size, ∃ bound, ∀ bottom depth, bound ≤ depth →
      Build.headerUnrolled bottom depth id ws = Build.header id ws ∧
        Build.renderUnrolled bottom depth id ws = Build.render id ws) ∧
    (∀ file < ws.size, ∀ path ws', Build.header file ws = .ok path ws' →
      ∃ output, ws'.output? file = some output ∧ path = (ws'.spellingOf file).spell output) ∧
    ∀ ws', Continues A ws ws' → ws.journal <+: ws'.journal ∧
      (∀ file, ws'.journal.count (.begun file) ≤ 1) ∧
      ∀ file output, ws.output? file = some output → ws'.output? file = some output ∧
        Build.header file ws' = .ok ((ws.spellingOf file).spell output) ws' := by
  obtain ⟨hs, hp⟩ := h.known (F := False) (H := False) (fun _ _ _ => False.elim)
    (fun _ _ _ => False.elim)
  refine ⟨fun id hid => ?_, fun file hlt path ws' hheader => ?_, fun ws' hcontinues => ?_⟩
  · obtain ⟨⟨bound, hbound⟩, -⟩ := Build.approaches_header hid hs
    obtain ⟨⟨bound', hbound'⟩, -⟩ := Build.approaches_render hid hs
    exact ⟨max bound bound', fun bottom depth hle =>
      ⟨hbound ⟨bottom, depth⟩ (by dsimp only; omega), hbound' ⟨bottom, depth⟩ (by dsimp only; omega)⟩⟩
  · obtain ⟨hreach, output, houtput, rfl⟩ := (Build.runs_header hp hlt).of_ok hs hheader
    exact ⟨output, houtput, by rw [hreach.spellingOf_eq hs hlt]⟩
  · have hreach := hcontinues.works (F := False) (H := False)
      (fun ws c hc => (hA ws c hc).brings) (fun _ _ _ => False.elim) (fun _ _ _ => False.elim) hs hp
    refine ⟨hreach.journal, fun file =>
      List.nodup_iff_count_le_one.mp (hreach.sound hs).journal.nodup (.begun file), ?_⟩
    intro file output houtput
    obtain ⟨houtput', hspelling⟩ := hreach.decided_spelling hs (h.owned hA) houtput
    refine ⟨houtput', ?_⟩
    rw [Build.header_of_decided houtput', hspelling]

/-- Two sources that include each other: each header is begun while the other is asked for, and asking
again gives the same path. -/
theorem History.header_recursion_mutual :
    let disk : Disk := ⟨[(["f.light"], .file (.text "function x\n call g.z\n")),
      (["g.light"], .file (.text "function z\n call f.x\n"))], ⟨"/"⟩⟩
    let ws := Call.play [.registerProject "p" ⟨"/"⟩ ⟨"/o"⟩ .plain, .load 0]
      (Workspace.new {} disk [.light, .cpp])
    let ws' := (Call.header 1).run.after ws
    History FiledCall ws ∧
      (∃ bound, ∀ bottom depth, bound ≤ depth →
        Build.headerUnrolled bottom depth 1 ws = Build.header 1 ws) ∧
      ws'.journal = [.opened 1, .begun 1, .opened 2, .begun 2] ∧
      Build.header 1 ws' = .ok "/o/f.hpp" ws' := by
  intro disk ws ws'
  have hhistory : History FiledCall ws := .play (by decide +kernel)
  obtain ⟨hlt, hjournal, houtput, hspelling⟩ : 1 < ws.size ∧
      ws'.journal = [.opened 1, .begun 1, .opened 2, .begun 2] ∧
      ws'.output? 1 = some ⟨"/o/f.hpp"⟩ ∧ (ws'.spellingOf 1).spell ⟨"/o/f.hpp"⟩ = "/o/f.hpp" := by
    decide +kernel
  have hnext : Continues FiledCall ws ws' := .single ⟨.header 1, hlt, trivial, rfl⟩
  clear_value ws' ws
  have hhistory' : History FiledCall ws' := by
    obtain ⟨settings, disk, readers, hcontinues⟩ := hhistory
    exact ⟨settings, disk, readers, hcontinues.trans hnext⟩
  obtain ⟨hends, -, -⟩ := hhistory.header_recursion fun _ _ hc => hc
  obtain ⟨bound, hbound⟩ := hends 1 hlt
  obtain ⟨-, -, hstays⟩ := hhistory'.header_recursion fun _ _ hc => hc
  have hagain := ((hstays ws' .refl).2.2 1 _ houtput).2
  rw [hspelling] at hagain
  exact ⟨hhistory, ⟨bound, fun bottom depth hle => (hbound bottom depth hle).1⟩, hjournal, hagain⟩

end LightHeaders
