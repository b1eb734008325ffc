import LightHeaders.Proofs.HeaderRecursion
import LightHeaders.Proofs.Published

set_option autoImplicit false

/-! # Writing headers publishes them

Everything that writes text keeps what is published. The functions follow one another as in the model:
lines, components, files, headers. While the header of a file is written, the file is one more of those
that are under way, and when its text is on the disk it no longer is.
-/

namespace LightHeaders

open Text Workspace Build

namespace Build

/-! ## Lines -/

section Lines

variable {S : Spelling → Prop} {T : ComponentId → Prop} {start ws : Workspace} {id : ComponentId}

theorem appends_write (id : ComponentId) (s : String) :
    Runs Publishes (write id s) ws fun _ ws' => Appends id s ws ws' :=
  Runs.change (.edit id (.text s)) rfl trivial (.page (.text s) False.elim)
    (.edit (.text s) (fun _ => Buffer.text_push ..) fun _ => rfl)

theorem appends_endLine (id : ComponentId) (stamp : Bool) :
    Runs Publishes (endLine id stamp) ws fun _ ws' => Appends id "\n" ws ws' := by
  refine .bind (appends_write id "\n") fun _ ws₁ _ _ happends => .get fun _ => ?_
  split
  · exact .pure happends
  · next file _ =>
    have hcount : Runs Publishes (updateFile file fun f => { f with nextLine := f.nextLine + 1 }) ws₁
        fun _ ws' => Appends id "\n" ws ws' :=
      Runs.change (.edit file (.file .lineEnd)) rfl trivial (.page .lineEnd False.elim)
        (happends.silent (.editFile .lineEnd fun _ => ⟨rfl, rfl⟩))
    refine .bind hcount fun _ ws₂ _ _ happends => ?_
    split
    · next source _ _ =>
      have hstamp : Runs Publishes (updateForest fun f => f.stamp source
          (((ws₁.component file).file?.map SourceFile.nextLine).getD 0)) ws₂
          fun _ ws' => Appends id "\n" ws ws' :=
        Runs.change (.stamp source _) rfl trivial (.stamp source _)
          ⟨happends.size, happends.text, happends.progress, happends.disk,
            happends.strides.tail (.stamp source _)⟩
      exact .bind hstamp fun _ _ _ _ happends => .pure happends
    · exact .pure happends

theorem published_write (hp : ws.Published S T start) (id : ComponentId) {s : String}
    (hs : Lined (ws.Lawful S) s) :
    Runs Publishes (write id s) ws fun _ ws' => ws'.Published S T start :=
  Runs.of_sound fun hsound => (appends_write id s).weaken fun _ _ _ hreach happends =>
    hp.appends hsound hreach happends hs

theorem appends_line (id : ComponentId) (line : String) (stamp : Bool) :
    Runs Publishes
      (do
        write id line
        discard <| endLine id stamp) ws fun _ ws' => Appends id (line ++ "\n") ws ws' :=
  Runs.bind (appends_write id line) fun _ _ _ _ happends => .discard
    ((appends_endLine id stamp).weaken fun _ _ _ _ hend => happends.trans hend)

variable {line : String}

theorem published_line (hp : ws.Published S T start) (id : ComponentId) (hline : ws.Lawful S line)
    (stamp : Bool) :
    Runs Publishes
      (do
        write id line
        discard <| endLine id stamp) ws fun _ ws' => ws'.Published S T start :=
  Runs.of_sound fun hs => (appends_line id line stamp).weaken fun _ _ _ hreach happends =>
    hp.appends hs hreach happends (.single hline)

theorem published_marginLine (hp : ws.Published S T start) (id : ComponentId) (hline : IsCode line)
    (stamp : Bool) :
    Runs Publishes
      (do
        write id ((← get).margin id)
        write id line
        discard <| endLine id stamp) ws fun _ ws' => ws'.Published S T start := by
  refine .get fun hs => ?_
  have hadd : Runs Publishes
      (do
        write id (ws.margin id)
        write id line
        discard <| endLine id stamp) ws fun _ ws' => Appends id (ws.margin id ++ (line ++ "\n")) ws ws' :=
    Runs.bind (appends_write id _) fun _ _ _ _ happends =>
      (appends_line id line stamp).weaken fun _ _ _ _ hline => happends.trans hline
  refine hadd.weaken fun _ ws' _ hreach happends => hp.appends hs hreach happends ?_
  rw [← String.append_assoc]
  exact .single (lawful_of_isCode ((isCode_margin ws id).concat hline))

theorem published_addIndented (hp : ws.Published S T start) (id : ComponentId) (hline : IsCode line) :
    Runs Publishes (addIndented id line) ws fun _ ws' => ws'.Published S T start :=
  published_marginLine hp id hline true

theorem published_addClosing (hp : ws.Published S T start) (id : ComponentId) :
    Runs Publishes (addClosing id) ws fun _ ws' => ws'.Published S T start :=
  published_marginLine hp id (by decide) false

/-- Text that is handed on is of whole lines, and that of a file is its own. -/
theorem published_handOn (hp : ws.Published S T start) (id : ComponentId) :
    Runs Publishes (handOn id) ws fun text ws' => ws'.Published S T start ∧ Lined (ws'.Lawful S) text ∧
      (ws.isFile id = true → ws' = ws ∧ text = ws.text id) := by
  refine .component fun _ => ?_
  split
  · exact .pure ⟨hp, hp.pages id, fun _ => ⟨rfl, rfl⟩⟩
  · next target htarget =>
    refine .bind (published_write hp target (hp.pages id)) fun _ ws₁ _ _ hp₁ =>
      Runs.pure ⟨hp₁, .nil, fun hfile => ?_⟩
    rw [hp.own id hfile] at htarget
    cases htarget

end Lines

/-! ## Components -/

section Components

variable {S : Spelling → Prop} {T : ComponentId → Prop} {bound : Nat} {start ws : Workspace}
  {id : ComponentId} {render : ComponentId → Build String} {includeFile : ComponentId → ComponentId → Build Unit}

/-- Settling keeps what is published, if it goes by strides and what it settles is decided and settled with
success. -/
theorem Runs.publishes {α : Type} {G : ComponentId → Prop} {m : Build α} {Q : α → Workspace → Prop}
    (h : Runs (Settles True False G) m ws Q) (hp : ws.Published S T start) (hm : Paces m)
    (hG : ∀ a ws', m ws = .ok a ws' → ∀ id, G id → ws.Decided id ∧ ws'.Linked start id) :
    Runs Publishes m ws fun a ws' => ws'.Published S T start ∧ Q a ws' := by
  refine .of_sound fun hs => (h.given.weaken ?_).mono fun _ _ hc => .settle hc.widen
  rintro a ws' _ hreach ⟨hrun, hQ⟩
  exact ⟨hp.settles hs hreach (hm hrun) (hG a ws' hrun), hQ⟩

theorem Runs.spelled {α : Type} {m : Build α} {Q : α → Workspace → Prop}
    (h : Runs (Settles True False fun _ => False) m ws Q) (hp : ws.Published S T start) (hm : Paces m) :
    Runs Publishes m ws fun a ws' => ws'.Published S T start ∧ Q a ws' :=
  h.publishes hp hm fun _ _ _ _ => False.elim

theorem paces_load (id : ComponentId) : Paces (load id) := fun _ _ _ h => .single (.load id h)

/-- Writing components that are no files keeps what is published, and gives whole lines. -/
def Renders (S : Spelling → Prop) (T : ComponentId → Prop) (start : Workspace)
    (render : ComponentId → Build String) : Prop :=
  ∀ ws id, ws.Published S T start → id < ws.size → ws.isFile id = false →
    Runs Publishes (render id) ws fun text ws' => ws'.Published S T start ∧ Lined (ws'.Lawful S) text

/-- Including files keeps what is published, as long as no more than `bound` files are undecided. -/
def IncludesWithin (S : Spelling → Prop) (T : ComponentId → Prop) (start : Workspace) (bound : Nat)
    (includeFile : ComponentId → ComponentId → Build Unit) : Prop :=
  ∀ ws file other, ws.Published S T start → ws.undecided ≤ bound →
    Runs Publishes (includeFile file other) ws fun _ ws' => ws'.Published S T start

theorem published_addChildren (hp : ws.Published S T start) (hrender : Renders S T start render)
    (prune : Bool) :
    Runs Publishes (addChildren render id prune) ws fun _ ws' => ws'.Published S T start := by
  refine .get fun hs => .forM hp fun child hchild ws₁ _ hreach₁ hp₁ => ?_
  have hlt := (hs.of_mem_childIds (mem_childIds_of_mem_writtenChildren hchild)).1
  have hno := isFile_of_mem_writtenChildren hchild
  rw [← hreach₁.extension.isFile hlt] at hno
  refine .component fun _ => .ite (fun _ => ?_) fun _ => .pure hp₁
  exact .bind (hrender ws₁ child hp₁ (hreach₁.lt hlt) hno) fun _ _ _ _ h =>
    published_write h.1 id h.2

theorem published_block (hp : ws.Published S T start) (hrender : Renders S T start render) {head : String}
    (hhead : IsCode head) (prune : Bool) :
    Runs Publishes
      (do
        addIndented id head
        addChildren render id prune
        addClosing id) ws fun _ ws' => ws'.Published S T start :=
  Runs.bind (published_addIndented hp id hhead) fun _ _ _ _ hp₁ =>
    Runs.bind (published_addChildren hp₁ hrender prune) fun _ _ _ _ hp₂ => published_addClosing hp₂ id

theorem published_addOwnText (hp : ws.Published S T start) (hid : id < ws.size) (hno : ws.isFile id = false)
    (hrender : Renders S T start render) {c : Component} (hkind : ws.kind id = c.kind)
    (hname : (ws.component id).name = c.name) :
    Runs Publishes (addOwnText includeFile render id c) ws fun _ ws' => ws'.Published S T start := by
  have hplain := hp.primed.plain trivial
  have hone := hplain.kind id
  have honeName := hplain.name id hno
  have hready := hp.primed.toReady
  unfold addOwnText
  cases hk : c.kind with
  | file f =>
    rw [isFile, hkind, hk] at hno
    cases hno
  | space =>
    rw [hname] at honeName
    exact published_block hp hrender
      (IsCode.append (OneLine.append (by decide) honeName) (by decide) (by decide)) true
  | classType | structType => exact .throw _
  | function s =>
    rw [hkind, hk] at hone
    refine .bind ((isCode_cppHead hready id fun _ => hone).spelled hp (spellingRules_paces.cppHead id s)) ?_
    rintro head _ _ _ ⟨hp₁, hhead⟩
    refine published_block hp₁ hrender (hhead trivial hid honeName fun param hparam => ?_) false
    obtain ⟨hlt, hnoFile⟩ := hplain.param id s (hkind.trans hk) param hparam
    exact ⟨hlt, hplain.name param hnoFile⟩
  | member m =>
    rw [hkind, hk] at hone
    refine .bind ((isCode_cppMember hready id fun _ => hone).spelled hp
      (spellingRules_paces.cppMember id m)) ?_
    rintro line _ _ _ ⟨hp₁, hline⟩
    exact published_addIndented hp₁ id (hline trivial hid honeName)
  | operation o =>
    rw [hkind, hk] at hone
    dsimp only
    cases c.instruction? with
    | none => exact .pure hp
    | some source =>
      refine .bind ((isCode_cppStatement hready id source fun _ => hone).spelled hp
        (spellingRules_paces.cppStatement id source o)) ?_
      rintro line _ _ _ ⟨hp₁, hline⟩
      refine published_addIndented hp₁ id (hline trivial fun t ht => ?_)
      exact hplain.target id o t (hkind.trans hk) ht

theorem published_written (hp : ws.Published S T start) (id : ComponentId) :
    Runs Publishes (update id fun c => { c with written := true }) ws fun _ ws' =>
      ws'.Published S T start ∧ ws'.kind id = ws.kind id ∧ (ws'.component id).name = (ws.component id).name ∧
        ∀ x, (ws'.component x).progress = (ws.component x).progress := by
  refine .of_sound fun hs => ?_
  have happends : Appends id "" ws ((Change.edit id .written).apply ws) :=
    .edit .written (fun _ => String.append_empty.symm) fun _ => rfl
  refine .change (.edit id .written) rfl trivial (.page .written False.elim) ⟨?_, ?_, ?_, happends.progress⟩
  · exact hp.appends hs (.single _ trivial (.page .written False.elim)) happends .nil
  · exact ws.modify_keeps (g := Edit.written.apply) id Component.kind (fun _ => rfl) id
  · exact ws.modify_keeps (g := Edit.written.apply) id Component.name (fun _ => rfl) id

theorem renders_renderBelow (hrender : Renders S T start render) : Renders S T start
    (renderBelow includeFile render) := by
  intro ws id hp hid hno
  refine .component fun _ => .bind (published_written hp id) ?_
  rintro _ ws₁ _ hreach₁ ⟨hp₁, hkind, hname, _⟩
  have hno₁ : ws₁.isFile id = false := by rw [hreach₁.extension.isFile hid, hno]
  refine .bind (published_addOwnText hp₁ (hreach₁.lt hid) hno₁ hrender hkind hname)
    fun _ _ _ _ hp₂ => (published_handOn hp₂ id).weaken fun _ _ _ _ h => ⟨h.1, h.2.1⟩

theorem renders_renderWithin (depth : Nat) : Renders S T start (renderWithin includeFile depth) := by
  induction depth with
  | zero => exact fun _ _ hp _ _ => .pure ⟨hp, .nil⟩
  | succ depth ih => exact renders_renderBelow ih

theorem renders_renderInside : Renders S T start (renderInside includeFile) :=
  fun ws id hp hid hno => .get fun _ => renders_renderWithin ws.capacity ws id hp hid hno

/-- **The text of a file.** The names in it are resolved before anything is written. -/
theorem published_addFileText (hp : ws.Published S T start) (hdecided : ws.Decided id)
    (hfresh : ws.isSettled id = false) (hbound : ws.undecided ≤ bound)
    (hinclude : IncludesWithin S T start bound includeFile) (hrender : Renders S T start render) :
    Runs Publishes (addFileText includeFile render id) ws fun _ ws' =>
      ws'.Published S T start ∧ ws'.isSettled id = true := by
  refine .of_sound fun hs => ?_
  have hid := lt_size_of_isFile hdecided.isFile
  have hsettle : Runs Publishes (settle id) ws _ :=
    (runs_settle (G := fun x => x = id) hp.primed.toReady hid rfl).publishes hp
      (fun _ _ _ h => .single (.settle id h)) (by
        rintro ⟨⟩ ws' hrun _ rfl
        exact ⟨hdecided, ws, ws', hp.strode, hdecided.isFile, hfresh, hrun, .refl⟩)
  refine .bind hsettle ?_
  rintro _ ws₁ hs₁ hreach₁ ⟨hp₁, hall⟩
  have hsettled : ws₁.isSettled id = true := by
    obtain ⟨f, hf⟩ := Option.isSome_iff_exists.mp (hreach₁.decided hs hdecided).isFile
    exact (Option.any_eq_true _ _).mpr ⟨f, hf, hall f hf⟩
  -- what follows the includes, whether or not there were any
  have hrest : ∀ ws', Reach Publishes ws ws' → ws'.Published S T start → Runs Publishes
      (do
        ((← get).lifted id).forM fun function => discard <| render function
        addChildren render id true) ws' fun _ ws'' => ws''.Published S T start := by
    intro ws' hreach' hp'
    refine .get fun hs' => .bind (.forM hp' fun function hmem ws₂ _ hreach₂ hp₂ => ?_)
      fun _ _ _ _ hp₃ => published_addChildren hp₃ hrender true
    obtain ⟨hno, hsame⟩ := hs'.fileOf?_of_mem_lifted hmem
    have hlt := hs'.lt_size_of_fileOf? (hsame.trans (hs'.fileOf?_self (hreach'.decided hs hdecided).isFile))
    rw [← hreach₂.extension.isFile hlt] at hno
    exact .discard ((hrender ws₂ function hp₂ (hreach₂.lt hlt) hno).weaken
      fun _ _ _ _ h => h.1)
  suffices hall : Runs Publishes _ ws₁ fun _ ws' => ws'.Published S T start from
    hall.weaken fun _ _ _ hreach hp' => ⟨hp', hreach.isSettled hs₁ hsettled⟩
  refine .component fun _ => ?_
  split
  · exact hrest ws₁ hreach₁ hp₁
  · next file hfile =>
    have hlibraries := (hp₁.primed.plain trivial).library id file hfile
    refine .bind (.forM (I := fun ws => ws.Published S T start) hp₁ fun library hmem ws₂ _ _ hp₂ => ?_)
      fun _ ws₂ _ hreach₂ hp₂ => ?_
    · have hcode : IsCode ("#include <" ++ library ++ ">") :=
        IsCode.append (OneLine.append (by decide) (hlibraries library hmem)) (by decide) (by decide)
      exact published_line hp₂ id (lawful_of_isCode hcode) false
    · refine .bind (.forM hp₂ fun other _ ws₃ _ hreach₃ hp₃ => ?_)
        fun _ ws₃ _ hreach₃ hp₃ => hrest ws₃ ((hreach₁.trans hreach₂).trans hreach₃) hp₃
      have hle := ((hreach₁.trans hreach₂).trans hreach₃).undecided_le hs
      exact hinclude ws₃ id other hp₃ (le_trans hle hbound)

/-- **Writing a file** whose path is decided resolves the names in it and gives its text. -/
theorem published_renderWith (hp : ws.Published S T start) (hdecided : ws.Decided id)
    (hfresh : ws.isSettled id = false) (hbound : ws.undecided ≤ bound)
    (hinclude : IncludesWithin S T start bound includeFile) :
    Runs Publishes (renderWith includeFile id) ws fun text ws' =>
      ws'.Published S T start ∧ ws'.isSettled id = true ∧ text = ws'.text id := by
  refine .of_sound fun hs => .component fun _ => .bind (published_written hp id) ?_
  rintro _ ws₁ hs₁ hreach₁ ⟨hp₁, hkind, _, hprogress⟩
  have hfile := hdecided.isFile
  have hdecided₁ := hreach₁.decided hs hdecided
  have hfresh₁ : ws₁.isSettled id = false :=
    (isSettled_of_progress (hprogress id)).trans hfresh
  have htext : Runs Publishes (addOwnText includeFile (renderInside includeFile) id (ws.component id)) ws₁
      fun _ ws' => ws'.Published S T start ∧ ws'.isSettled id = true := by
    obtain ⟨file, hkindFile⟩ : ∃ file, (ws.component id).kind = .file file := by
      rw [isFile, kind] at hfile
      cases hk : (ws.component id).kind with
      | file file => exact ⟨file, rfl⟩
      | _ =>
        rw [hk] at hfile
        cases hfile
    rw [addOwnText, hkindFile]
    exact published_addFileText hp₁ hdecided₁ hfresh₁
      (le_trans (hreach₁.undecided_le hs) hbound) hinclude renders_renderInside
  refine .bind htext ?_
  rintro _ ws₂ _ hreach₂ ⟨hp₂, hsettled⟩
  refine (published_handOn hp₂ id).weaken ?_
  rintro text ws₃ _ _ ⟨hp₃, _, hown⟩
  obtain ⟨rfl, rfl⟩ := hown (hreach₂.decided hs₁ hdecided₁).isFile
  exact ⟨hp₃, hsettled, rfl⟩

end Components

/-! ## Headers -/

section Headers

variable {S : Spelling → Prop} {T : ComponentId → Prop} {bound : Nat} {start ws : Workspace}
  {id : ComponentId} {render header : ComponentId → Build String}

/-- Text that is forgotten was no header. -/
theorem published_clearWithin (depth : Nat) (hp : ws.Published S T start) (id : ComponentId) :
    Runs Publishes (clearWithin depth id) ws fun _ ws' => ws'.Published S T start ∧
      ∀ x, (ws'.component x).progress = (ws.component x).progress := by
  induction depth generalizing ws id with
  | zero => exact .pure ⟨hp, fun _ => rfl⟩
  | succ depth ih =>
    refine .component fun hs => ?_
    have hforget : Runs Publishes (update id fun c => { c with buffer := {}, written := false }) ws
        fun _ ws' => ws'.Published S T start ∧
          ∀ x, (ws'.component x).progress = (ws.component x).progress := by
      have hprogress := ws.modify_keeps (g := Edit.cleared.apply) id Component.progress fun _ => rfl
      refine .change (.edit id .cleared) rfl trivial (.page .cleared False.elim) ⟨?_, hprogress⟩
      refine hp.of_reach hs (.single _ trivial (.page .cleared False.elim)) (.single (.page id .cleared))
        (fun x => output?_of_progress (hprogress x)) rfl
        (fun x => .inl (isSettled_of_progress (hprogress x))) fun x => ?_
      rw [text, Change.apply, component_modify_eq]
      split
      · exact .nil
      · exact hp.pages x
    refine .bind hforget ?_
    rintro _ ws₁ hs₁ _ ⟨hp₁, hprogress₁⟩
    have hrestart : Runs Publishes (updateFile id fun f => { f with nextLine := 1, included := [] }) ws₁
        fun _ ws' => ws'.Published S T start ∧
          ∀ x, (ws'.component x).progress = (ws.component x).progress := by
      have happends : Appends id "" ws₁ ((Change.edit id (.file .restart)).apply ws₁) :=
        .editFile .restart fun _ => ⟨rfl, rfl⟩
      refine .change (.edit id (.file .restart)) rfl trivial (.page .restart False.elim) ⟨?_, ?_⟩
      · exact hp₁.appends hs₁ (.single _ trivial (.page .restart False.elim)) happends .nil
      · exact fun x => (happends.progress x).trans (hprogress₁ x)
    refine .bind hrestart fun _ ws₂ _ _ hkept₂ => .ite (fun _ => ?_) fun _ => .pure hkept₂
    refine .forM hkept₂ ?_
    rintro child _ ws₃ _ _ ⟨hp₃, hprogress₃⟩
    exact (ih hp₃ child).weaken fun _ _ _ _ h => ⟨h.1, fun x => (h.2 x).trans (hprogress₃ x)⟩

/-- Directories are made where there is none. -/
theorem published_makeDirectories (hp : ws.Published S T start) (dir : Path) :
    Runs Publishes (change (·.makeDirectories dir) (.unusable dir)) ws fun _ ws' =>
      ws'.Published S T start ∧ ws'.components = ws.components := by
  refine .bind Runs.ask ?_
  rintro d ws hs - ⟨rfl, hd⟩
  have hgrows := (Disk.grows_of_makeDirectories hd).1
  exact .change (.disk d) rfl trivial (.disk hgrows)
    ⟨hp.changeDisk hs (.directories hd) hgrows fun _ _ hread =>
      .inl (Disk.readText_of_makeDirectories hd hread), rfl⟩

variable {output : Path} {path : String}

/-- **The text of a header goes to the disk.** It may take the place of another header. -/
theorem published_writeText (hp : ws.Published S (fun x => x = id ∨ T x) start)
    (hout : ws.output? id = some output)
    (hsettled : ws.isSettled id = true) {text : String} (hlined : Lined (ws.Lawful S) text) :
    Runs Publishes (change (·.writeText output text) (.unusable output)) ws fun _ ws' =>
      ws'.Published S T start ∧ ws'.components = ws.components ∧ ws'.disk.readText output = .ok text := by
  refine .bind Runs.ask ?_
  rintro d ws hs - ⟨rfl, hd⟩
  have hgrows := Disk.grows_of_writeText hd
  have hread := Disk.readText_of_writeText hd
  have hdisk := hp.changeDisk hs (.header hout hd) hgrows fun p s hold =>
    (Disk.readText_of_writeText_or hd hold).imp (fun hsame => hsame) fun hnew => ⟨text, hnew, hlined⟩
  refine .change (.disk d) rfl trivial (.disk hgrows) ⟨hdisk.finish ?_ ?_, rfl, hread⟩
  · intro p hp'
    cases hout.symm.trans hp'
    exact Disk.isFile_of_readText hread
  · intro f p hf _ hp'
    have heq : ws.output? id = some p := by
      rw [output?, show (ws.component id).file? = some f from hf, Option.bind_some, hp']
    cases hout.symm.trans heq
    exact ⟨hsettled, text, hread, hlined⟩

/-- **A header is written** once the path of the file is decided. -/
theorem published_writeHeader (hp : ws.Published S (fun x => x = id ∨ T x) start)
    (hout : ws.output? id = some output)
    (hrender : ∀ ws', Reach Publishes ws ws' → ws'.Published S (fun x => x = id ∨ T x) start →
      ws'.isSettled id = ws.isSettled id → Runs Publishes (render id) ws' fun text ws'' =>
        ws''.Published S (fun x => x = id ∨ T x) start ∧ ws''.isSettled id = true ∧ text = ws''.text id) :
    Runs Publishes (writeHeader render id output) ws fun _ ws' =>
      ws'.Published S T start ∧ ws'.disk.readText output = .ok (ws'.text id) := by
  refine .of_sound fun hs => ?_
  have hclear : Runs Publishes (clear id) ws _ := Runs.get fun _ => published_clearWithin (ws.size - id) hp id
  refine .bind hclear ?_
  rintro _ ws₁ hs₁ hreach₁ ⟨hp₁, hprogress⟩
  refine .bind (hrender ws₁ hreach₁ hp₁ (isSettled_of_progress (hprogress id))) ?_
  rintro text ws₂ hs₂ hreach₂ ⟨hp₂, hsettled, htext⟩
  subst htext
  have hout₂ := (hreach₁.trans hreach₂).output?_eq hs hout
  have hwrite : ∀ ws₃, Reach Publishes ws₂ ws₃ → ws₃.Published S (fun x => x = id ∨ T x) start →
      ws₃.components = ws₂.components →
      Runs Publishes (change (·.writeText output (ws₂.text id)) (.unusable output)) ws₃ fun _ ws' =>
        ws'.Published S T start ∧ ws'.disk.readText output = .ok (ws'.text id) := by
    intro ws₃ hreach₃ hp₃ hsame
    have htext : ∀ ws' : Workspace, ws'.components = ws₃.components → ws'.text id = ws₂.text id :=
      fun ws' heq => by rw [Workspace.text, Workspace.component, heq, hsame]; rfl
    have hlined := hp₃.pages id
    rw [htext ws₃ rfl] at hlined
    refine (published_writeText hp₃ (hreach₃.output?_eq hs₂ hout₂) (hreach₃.isSettled hs₂ hsettled)
      hlined).weaken ?_
    rintro _ ws' _ _ ⟨hp', heq, hread⟩
    refine ⟨hp', ?_⟩
    rw [htext ws' heq]
    exact hread
  split
  · exact hwrite ws₂ (.refl _ ws₂) hp₂ rfl
  · exact .bind (published_makeDirectories hp₂ _) fun _ ws₃ _ hreach₃ h =>
      hwrite ws₃ hreach₃ h.1 h.2

/-- From `ws` to `ws'` the header of a file was asked for. If it is a Light source that was not decided
before, its text is on the page of the file. -/
def Obtains (id : ComponentId) (ws : Workspace) (path : String) (ws' : Workspace) : Prop :=
  ∃ output, ws'.output? id = some output ∧ path = (ws.spellingOf id).spell output ∧
    (¬ws.Decided id → ∀ f, (ws'.component id).file? = some f → Language.ofPath? f.path = some .light →
      ws'.disk.readText output = .ok (ws'.text id))

/-- The path of a Light source is chosen, and then it is under way. -/
theorem published_chosen (hp : ws.Published S T start) (hundecided : ¬ws.Decided id) {source : Path}
    (hlight : ws.IsLight id source) {α : Type} {k : Path → Build α} {Q : α → Workspace → Prop}
    (hk : ∀ output ws', Reach Publishes ws ws' → ws'.Published S (fun x => x = id ∨ T x) start →
      ws'.output? id = some output → ws'.isSettled id = false → Runs Publishes (k output) ws' Q) :
    Runs Publishes
      (do
        let output ← chooseOutput id source
        beginHeader id output
        k output) ws Q := by
  refine .of_sound fun hs => .bind (runs_chooseOutput hundecided hlight) ?_
  rintro output _ hs₁ hreach₁ ⟨⟨taken, rfl⟩, hundecided₁, hsuits⟩
  have hp₁ : ({ ws with taken } : Workspace).Published S T start :=
    hp.of_reach hs hreach₁ (.single (.take taken)) (fun _ => rfl) rfl (fun _ => .inl rfl) hp.pages
  obtain ⟨hp₂, hout, hfresh⟩ := hp₁.decide hs₁ hundecided₁ hsuits
  have hlegal := legal_begun hs₁ hundecided₁ hsuits
  refine .bind (runs_beginHeader hundecided₁ hsuits).given ?_
  rintro _ ws₂ _ hreach₂ ⟨hrun, _⟩
  cases hrun
  refine hk output _ (hreach₁.trans hreach₂) ?_ hout hfresh
  -- that the text is begun is noted, and nothing else changes
  exact hp₂.of_reach (hs₁.apply (.edit id (.file (.output output))) trivial)
    (.single (.record (.begun id)) hlegal (.begun id)) (.single (.begun id)) (fun _ => rfl) rfl
    (fun _ => .inl rfl) hp₂.pages

/-- **The header of a file**, where writing its text keeps what is published. -/
theorem published_headerWith (hp : ws.Published S T start) (hid : id < ws.size)
    (hrender : ∀ T' ws', ws'.Published S T' start → ws'.Decided id → ws'.isSettled id = false →
      ws'.undecided < ws.undecided → Runs Publishes (render id) ws' fun text ws'' =>
        ws''.Published S T' start ∧ ws''.isSettled id = true ∧ text = ws''.text id) :
    Runs Publishes (headerWith render id) ws fun path ws' =>
      ws'.Published S T start ∧ Obtains id ws path ws' := by
  refine .get fun hs => .component fun _ => ?_
  split
  · next output houtput =>
    exact .pure ⟨hp, output, houtput, rfl, fun hno => absurd (decided_of_output? houtput) hno⟩
  · next houtput =>
    have hundecided : ¬ws.Decided id := not_decided_of_output? houtput
    have hload : Runs Publishes (load id) ws fun _ ws' => ws'.Published S T start ∧ ¬ws'.Decided id :=
      Runs.spelled ((makes_loadOnce hp.primed.toReady hid).weaken fun _ _ _ hreach _ =>
        hreach.undecided hs hid hundecided) hp (paces_load id)
    refine .bind hload ?_
    rintro _ ws₁ hs₁ hreach₁ ⟨hp₁, hundecided₁⟩
    refine .component fun _ => ?_
    split
    · exact .get fun _ => .throw _
    · next file hfile =>
      have hisFile := isFile_of_file? hfile
      split
      · exact .throw _
      · next hlanguage =>
        -- a C++ header is its own, and it is on the disk because it was read
        have hsuits : ws₁.Suits id file.path := ⟨file, hfile, .inl ⟨hlanguage, rfl⟩⟩
        obtain ⟨hp₂, hout, -⟩ := hp₁.decide hs₁ hundecided₁ hsuits
        have hcpp := hp₁.outputs.language id file .cpp hfile hlanguage
        have hlt₁ := lt_size_of_isFile hisFile
        have hno : ∀ f, (((Change.edit id (.file (.output file.path))).apply ws₁).component id).file?
            = some f → Language.ofPath? f.path ≠ some .light := by
          intro f hf hlight
          have hspot : (((Change.edit id (.file (.output file.path))).apply ws₁).component id).spot
              = (ws₁.component id).spot := Change.spot_apply _ trivial hlt₁
          obtain ⟨g, hg, hpath, -⟩ := file?_of_spot hspot.symm hf
          rw [hfile] at hg
          cases hg
          rw [← hpath, hcpp] at hlight
          cases hlight
        refine .bind (runs_decide hundecided₁ hsuits).given ?_
        rintro _ ws₂ _ _ ⟨hrun, _⟩
        cases hrun
        refine .pure ⟨hp₂.finish ?_ fun f _ hf hlight => absurd hlight (hno f hf), file.path, hout,
          rfl, fun _ f hf hlight => absurd hlight (hno f hf)⟩
        intro output houtput
        cases hout.symm.trans houtput
        exact hp₁.source id file .cpp hfile hlanguage
      · next hlanguage =>
        refine published_chosen hp₁ hundecided₁ ⟨file, hfile, hlanguage, rfl⟩
          fun output ws₂ hreach₂ hp₂ hout hfresh => ?_
        have hs₂ := hreach₂.sound hs₁
        have hdecided := decided_of_output? hout
        refine .bind (published_writeHeader hp₂ hout fun ws₃ hreach₃ hp₃ hsettled => ?_) ?_
        · have hdecided₃ := hreach₃.decided hs₂ hdecided
          have hfile₀ : ws.isFile id = true := by rw [← hreach₁.extension.isFile hid, hisFile]
          exact hrender _ ws₃ hp₃ hdecided₃ (hsettled.trans hfresh)
            (((hreach₁.trans hreach₂).trans hreach₃).undecided_lt hs hfile₀ hundecided hdecided₃)
        · rintro _ ws₃ _ hreach₃ ⟨hp₃, hread⟩
          exact .pure ⟨hp₃, output, hreach₃.output?_eq hs₂ hout, rfl, fun _ _ _ _ => hread⟩

variable {ws' : Workspace}

theorem Obtains.isHeader (h : Obtains id ws path ws') (hp : ws.Published S T start)
    : ws'.IsHeader S path := by
  obtain ⟨output, houtput, hpath, -⟩ := h
  exact ⟨id, output, _, houtput, hp.spellingOf id, hpath⟩

/-- **What is included is a header.** -/
theorem includesWithin_includeWith
    (hheader : ∀ ws other, ws.Published S T start → ws.undecided ≤ bound → other < ws.size →
      Runs Publishes (header other) ws fun path ws' => ws'.Published S T start ∧ ws'.IsHeader S path) :
    IncludesWithin S T start bound fun file other => discard <| includeWith header file other := by
  intro ws file other hp hbound
  have haround : Runs Publishes (headerAroundWith header other) ws fun path ws' =>
      ws'.Published S T start ∧ ws'.IsHeader S path := by
    refine .get fun _ => ?_
    split
    · exact .throw _
    · next around haround =>
      exact hheader ws around hp hbound
        (lt_size_of_isFile (isFile_of_fileOf? haround))
  refine .discard (.bind haround ?_)
  rintro path ws₁ _ _ ⟨hp₁, hpath⟩
  refine .component fun _ => ?_
  refine .ite (fun _ => .pure hp₁) fun _ => .bind Runs.needReader ?_
  rintro _ ws₁ - - rfl
  refine .bind (published_line hp₁ file (lawful_include hpath) false)
    fun _ ws₂ hs₂ _ hp₂ => ?_
  have hnote : Runs Publishes (updateFile file fun f => { f with included := f.included ++ [path] }) ws₂
      fun _ ws' => ws'.Published S T start :=
    Runs.change (.edit file (.file (.included path))) rfl trivial (.page (.included path) False.elim)
      (hp₂.appends hs₂ (.single _ trivial (.page (.included path) False.elim))
        (.editFile (.included path) fun _ => ⟨rfl, rfl⟩) .nil)
  exact .bind hnote fun _ _ _ _ hp₃ => .pure hp₃

/-- **The header of a file**, with those of the files it includes, by induction on how many files are to
be decided. -/
theorem published_headerWithin (depth : Nat) (hp : ws.Published S T start) (hid : id < ws.size)
    (hdepth : ws.undecided ≤ depth) :
    Runs Publishes (headerWithin depth id) ws fun path ws' =>
      ws'.Published S T start ∧ Obtains id ws path ws' := by
  induction depth generalizing T ws id with
  | zero =>
    exact published_headerWith hp hid fun _ _ _ _ _ hlt =>
      absurd (lt_of_lt_of_le hlt hdepth) (Nat.not_lt_zero _)
  | succ depth ih =>
    refine published_headerWith hp hid fun T' ws₁ hp₁ hdecided hfresh hlt => ?_
    refine published_renderWith hp₁ hdecided hfresh (Nat.le_of_lt_succ (lt_of_lt_of_le hlt hdepth))
      (includesWithin_includeWith fun ws₂ other hp₂ hbound hother => ?_)
    exact (ih hp₂ hother hbound).weaken fun _ _ _ _ h => ⟨h.1, h.2.isHeader hp₂⟩

theorem published_header (hp : ws.Published S T start) (hid : id < ws.size) :
    Runs Publishes (Build.header id) ws fun path ws' => ws'.Published S T start ∧ Obtains id ws path ws' :=
  Runs.get fun _ => published_headerWithin ws.undecided hp hid le_rfl

/-! ## Compiling -/

/-- What is known of a header can be told from before its file was loaded. -/
theorem Obtains.before {ws₁ : Workspace} (h : Obtains id ws₁ path ws')
    (hspelling : ws₁.spellingOf id = ws.spellingOf id) (hundecided : ¬ws.Decided id → ¬ws₁.Decided id) :
    Obtains id ws path ws' := by
  obtain ⟨output, houtput, hpath, hread⟩ := h
  exact ⟨output, houtput, hspelling ▸ hpath, fun hno => hread (hundecided hno)⟩

theorem published_translate (hp : ws.Published S T start) (project : ProjectId) (hid : id < ws.size) :
    Runs Publishes (translate project id) ws fun r ws' =>
      ws'.Published S T start ∧ r.project = project ∧ r.text = ws'.text id ∧ Obtains id ws r.path ws' := by
  refine .of_sound fun hs => ?_
  have hload : Runs Publishes (load id) ws fun _ ws' =>
      ws'.Published S T start ∧ (¬ws.Decided id → ¬ws'.Decided id) :=
    Runs.spelled ((makes_loadOnce hp.primed.toReady hid).weaken fun _ _ _ hreach _ =>
      hreach.undecided hs hid) hp (paces_load id)
  refine .bind hload ?_
  rintro _ ws₁ hs₁ hreach₁ ⟨hp₁, hundecided₁⟩
  have hlt₁ := hreach₁.lt hid
  -- the header is asked for in the same way with or without a main function
  have hheader : ∀ ws₂, Reach Publishes ws₁ ws₂ → ws₂.Published S T start →
      (¬ws₁.Decided id → ¬ws₂.Decided id) → Runs Publishes
        (do
          let path ← header id
          return { project, path, text := (← component id).buffer.text : Compiled }) ws₂
        fun r ws' => ws'.Published S T start ∧ r.project = project ∧ r.text = ws'.text id ∧
          Obtains id ws r.path ws' := by
    intro ws₂ hreach₂ hp₂ hundecided₂
    refine .bind (published_header hp₂ (hreach₂.lt hlt₁)) ?_
    rintro path ws₃ _ _ ⟨hp₃, hobtains⟩
    refine .component fun _ => .pure ⟨hp₃, rfl, rfl, hobtains.before ?_ fun hno => ?_⟩
    · exact (hreach₁.trans hreach₂).spellingOf_eq hs hid
    · exact hundecided₂ (hundecided₁ hno)
  refine .component fun _ => ?_
  split
  · next function _ =>
    have hmark : Runs Publishes (markReferenced function) ws₁ fun _ ws' =>
        ws'.Published S T start ∧ (¬ws₁.Decided id → ¬ws'.Decided id) :=
      Runs.spelled ((makes_markReferenced function).weaken fun _ _ _ hreach _ =>
        hreach.undecided hs₁ hlt₁) hp₁ fun _ _ _ h => by
          cases h
          exact .single (.referenced function)
    exact .bind hmark fun _ ws₂ _ hreach₂ h => hheader ws₂ hreach₂ h.1 h.2
  · exact hheader ws₁ (.refl _ ws₁) hp₁ fun hno => hno

/-- **A compile that succeeds** keeps what is published, and adds the header of the entry to it. -/
theorem published_compile (hs : ws.Sound) (hp : ws.Published S T start) {settings : Settings}
    (hspelling : S settings.spelling) {entry : Path} {result : Compiled}
    (hok : compile settings entry ws = .ok result ws') :
    ws'.Sound ∧ ws'.Published S T start ∧ ∃ file ws₁,
      entryFile settings entry ws = .ok (result.project, file) ws₁ ∧
      translate result.project file ws₁ = .ok result ws' ∧ file < ws₁.size ∧ Reach (Charts S) ws ws₁ ∧
      result.text = ws'.text file ∧ Obtains file ws₁ result.path ws' := by
  rw [compile_eq] at hok
  obtain ⟨⟨project, file⟩, ws₁, hfound, htranslate⟩ := exists_of_bind_eq_ok hok
  obtain ⟨hreach₁, hlt, -⟩ := (runs_entryFile False.elim hspelling hp.mapped.rooted hp.mapped.current
    False.elim).of_ok hs hfound
  have hs₁ := hreach₁.sound hs
  obtain ⟨hreach₂, hp₂, hproject, htext, hobtains⟩ :=
    (published_translate (hp.charts hs hreach₁) project hlt).of_ok hs₁ htranslate
  cases hproject
  exact ⟨hreach₂.sound hs₁, hp₂, file, ws₁, hfound, htranslate, hlt, hreach₁, htext, hobtains⟩

end Headers

end Build

/-! ## Sessions in which all goes well -/

/-- A project is registered or an entry is compiled, with paths spelled as `S` allows, and that succeeds. -/
def SmoothCall (S : Spelling → Prop) (ws : Workspace) (c : Call) : Prop :=
  (match c with
    | .openProject settings _ _ | .compile settings _ => S settings.spelling
    | _ => False) ∧ c.run.succeeds ws = true

section Sessions

variable {S : Spelling → Prop} {start ws ws' : Workspace}

variable {disk : Disk} {settings : Settings}

theorem Workspace.published_new (readers : List Language) (hS : S .plain)
    (hcurrent : disk.current.isAbsolute = true) :
    (new settings disk readers).Published S (fun _ => False) (new settings disk readers) := by
  have hc := component_new settings disk readers
  refine ⟨⟨hS, primed_new True False settings disk readers, outputs_new settings disk readers,
    mapped_new readers (fun _ => hcurrent) False.elim, ?_, ?_⟩, fun id => ?_, fun id _ => ?_, ?_, ?_, .refl,
    fun id hsettled => ?_⟩
  · intro id f l hf
    rw [hc] at hf
    cases hf
  · intro id _
    rw [hc]
    rfl
  · rw [text, hc]
    exact .nil
  · rw [isSettled, hc]
    rfl
  · intro id output hout
    rw [output?, hc] at hout
    cases hout
  · intro id f output hf
    rw [hc] at hf
    cases hf
  · rw [isSettled, hc] at hsettled
    cases hsettled

theorem SmoothCall.published {c : Call} (h : SmoothCall S ws c) (hs : ws.Sound)
    (hp : ws.Published S (fun _ => False) start) :
    (c.run.after ws).Sound ∧ (c.run.after ws).Published S (fun _ => False) start := by
  obtain ⟨_, hok⟩ := ok_of_succeeds h.2
  cases c with
  | openProject settings name root =>
    obtain ⟨_, _, hopen, hrest⟩ := exists_of_bind_eq_ok hok
    cases hrest
    have hasked : ∀ q, Path.absolute? ws.disk.current root = some q → ws.Asked True False none name q :=
      fun q hq => ⟨fun _ => ⟨Path.isAbsolute_of_absolute? (hp.mapped.current trivial) hq,
        Path.normal_of_absolute? hq⟩, False.elim⟩
    obtain ⟨hreach, -⟩ := (runs_openProject h.1 hasked).of_ok hs hopen
    exact ⟨hreach.sound hs, hp.charts hs hreach⟩
  | compile settings entry =>
    obtain ⟨_, _, hcompile, hrest⟩ := exists_of_bind_eq_ok hok
    cases hrest
    obtain ⟨hs', hp', -⟩ := published_compile hs hp h.1 hcompile
    exact ⟨hs', hp'⟩
  | _ => exact h.1.elim

/-- **In a session in which all goes well everything that is decided is published**, after every call. -/
theorem Continues.published {readers : List Language}
    (h : Continues (SmoothCall S) (new settings disk readers) ws) (hS : S .plain)
    (hcurrent : disk.current.isAbsolute = true) :
    ws.Sound ∧ ws.Published S (fun _ => False) (new settings disk readers) := by
  induction h with
  | refl => exact ⟨sound_new settings disk readers, published_new readers hS hcurrent⟩
  | tail _ step ih =>
    obtain ⟨c, -, allowed, rfl⟩ := step
    exact allowed.published ih.1 ih.2

end Sessions

end LightHeaders
