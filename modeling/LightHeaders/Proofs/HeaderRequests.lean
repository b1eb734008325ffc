import LightHeaders.Proofs.HeaderRecursion
import LightHeaders.Proofs.IncludeCoverage

set_option autoImplicit false

/-! # Headers that are asked for on the way

While the header of a file is written, those of other files are asked for, and these can ask for further
ones. Each file that comes to be decided on the way was asked for at some moment, in a workspace where it
was not decided; and what was written on its page by the end of that request is on it at the end of all
(`Build.requested_of_header`). So what is known of one request is known of each on the way.

The names in a file are resolved as soon as its header is begun, and what they use is marked. So whenever
a header is asked for, all that is used in the files whose headers were begun is marked
(`Workspace.Spread`), and that is still so when the request has been met.
-/

namespace LightHeaders

open Workspace

/-! ## What files use -/

namespace Workspace

variable (ws : Workspace)

/-- A name in `x` leads to `c`: as what is called or assigned, or as a value. -/
def Uses (x c : ComponentId) : Prop :=
  ∃ m ∈ ws.mentions x, m.marks = true ∧ ws.targetAt? x m.name = some (.component c)

/-- `f` is a Light source whose header is not begun and whose names were not resolved. -/
def Fresh (f : ComponentId) : Prop :=
  ∃ file, (ws.component f).file? = some file ∧ file.language? = some .light ∧ file.output? = none ∧
    file.settled = false

/-- Since `start`, what is used in a file was marked when its header was begun, and not sooner were its
names resolved. -/
structure Spread (start ws : Workspace) : Prop where
  marked : ∀ f, start.Fresh f → ws.Decided f → ∀ x c, start.DeclaredIn f x → start.Uses x c →
    (ws.component c).referenced = true
  fresh : ∀ f, start.Fresh f → ¬ws.Decided f → ws.Fresh f

variable {ws}

variable {f : ComponentId}

theorem Fresh.not_decided (h : ws.Fresh f) : ¬ws.Decided f := by
  obtain ⟨file, hfile, -, houtput, -⟩ := h
  exact Workspace.not_decided hfile houtput

theorem Fresh.isFile (h : ws.Fresh f) : ws.isFile f = true := by
  obtain ⟨file, hfile, -⟩ := h
  exact isFile_of_file? hfile

theorem Spread.refl (start : Workspace) : start.Spread start :=
  ⟨fun _ hf hdecided => absurd hdecided hf.not_decided, fun _ hf _ => hf⟩

/-- Whether the names in a file are resolved, and the files that it depends on. -/
def ties? (ws : Workspace) (g : ComponentId) : Option (Bool × List ComponentId) :=
  (ws.component g).file?.map fun file => (file.settled, file.dependencies)

variable {ws' : Workspace}

theorem ties?_of_bare (hb : ws'.bare = ws.bare) (g : ComponentId) : ws'.ties? g = ws.ties? g := by
  rw [ties?, ties?, Option.map_eq_bind, Option.map_eq_bind]
  exact of_file?_of_bare hb _ (fun _ => rfl) g

theorem Fresh.of_bare (h : ws.Fresh f) (hb : ws'.bare = ws.bare) : ws'.Fresh f := by
  obtain ⟨file, hfile, hlight, hnone, hopen⟩ := h
  have hview := of_file?_of_bare hb (fun file => some (file.language?, file.output?, file.settled)) (fun _ => rfl) f
  rw [hfile, Option.bind_some, hlight, hnone, hopen] at hview
  obtain ⟨file', hfile', heq⟩ := Option.bind_eq_some_iff.mp hview
  rw [Option.some_inj, Prod.mk.injEq, Prod.mk.injEq] at heq
  exact ⟨file', hfile', heq⟩

theorem Spread.of_bare {start : Workspace} (h : start.Spread ws) (hb : ws'.bare = ws.bare) :
    start.Spread ws' := by
  have hdecided : ∀ f, ws'.Decided f ↔ ws.Decided f := fun f => by
    rw [Decided, Decided, output?_of_bare hb]
  refine ⟨fun f hf hd x c hx hc => ?_, fun f hf hd => ?_⟩
  · rw [referenced_of_bare hb]
    exact h.marked f hf ((hdecided f).mp hd) x c hx hc
  · exact (h.fresh f hf fun hd' => hd ((hdecided f).mpr hd')).of_bare hb

end Workspace

theorem Reach.referenced {P : Change.Class} {ws ws' : Workspace} (h : Reach P ws ws') (hs : ws.Sound)
    {c : ComponentId} (hc : (ws.component c).referenced = true) : (ws'.component c).referenced = true := by
  have hlt : c < ws.size := Nat.lt_of_not_le fun hle => by
    rw [ws.component_of_size_le hle] at hc
    cases hc
  refine (h.invariant (I := fun ws => c < ws.size ∧ (ws.component c).referenced = true) hs ⟨hlt, hc⟩ ?_).2
  rintro next change - legal - ⟨hlt, hc⟩
  refine ⟨lt_of_lt_of_le hlt (change.extends_apply legal).size_le, ?_⟩
  rcases change.view_apply Component.referenced (fun _ _ _ => rfl) legal _ (.inl hlt) with heq | ⟨e, rfl, heq⟩
  · exact heq.trans hc
  · rw [heq]
    cases e with
    | referenced => rfl
    | param | resolved =>
      simp only [Edit.apply]
      split <;> exact hc
    | _ => exact hc

namespace Workspace.Alike

variable {ws ws' : Workspace} (h : ws.Alike ws')

include h

variable {x : ComponentId}

theorem uses_iff {c : ComponentId} : ws'.Uses x c ↔ ws.Uses x c := by
  simp only [Uses, h.mentions_eq, h.targetAt?_eq]

theorem declaredIn_iff {f : ComponentId} : ws'.DeclaredIn f x ↔ ws.DeclaredIn f x := by
  have hone : ∀ {ws ws' : Workspace}, ws.Alike ws' → ws.DeclaredIn f x → ws'.DeclaredIn f x := by
    intro ws ws' h hx
    induction hx with
    | child mem noFile => exact .child (by rwa [h.childIds_eq]) (by rwa [h.isFile_eq])
    | deeper _ mem noFile ih => exact .deeper ih (by rwa [h.childIds_eq]) (by rwa [h.isFile_eq])
  exact ⟨hone h.symm, hone h⟩

end Workspace.Alike

namespace Build

variable {ws ws' : Workspace} {f g : ComponentId}

/-! ## One request -/

variable {path : String}

/-- A request that succeeds finds the header made, decides the path of a C++ header, or is the first one
for that of a Light source. -/
theorem cases_of_headerWith {render : ComponentId → Build String} (hl : ws.Loaded)
    (h : headerWith render f ws = .ok path ws') :
    ws' = ws ∨ ∃ file, (ws.component f).file? = some file ∧ file.output? = none ∧
      (file.language? = some .cpp ∧ ws' = (Change.edit f (.file (.output file.path))).apply ws ∨
        file.language? = some .light) := by
  obtain ⟨_, _, hget, h⟩ := exists_of_bind_eq_ok h
  cases hget
  obtain ⟨_, _, hget, h⟩ := exists_of_bind_eq_ok h
  cases hget
  cases houtput : (ws.component f).file?.bind SourceFile.output? with
  | some output =>
    rw [houtput] at h
    cases h
    exact .inl rfl
  | none =>
    rw [houtput] at h
    obtain ⟨_, _, hload, h⟩ := exists_of_bind_eq_ok h
    rw [load_of_loaded hl f] at hload
    cases hload
    obtain ⟨_, _, hget, h⟩ := exists_of_bind_eq_ok h
    cases hget
    cases hfile : (ws.component f).file? with
    | none =>
      rw [hfile] at h
      cases h
    | some file =>
      rw [hfile] at h houtput
      dsimp only at h
      refine .inr ⟨file, rfl, houtput, ?_⟩
      cases hlanguage : file.language? with
      | none =>
        rw [hlanguage] at h
        cases h
      | some language =>
        rw [hlanguage] at h
        cases language with
        | cpp =>
          cases h
          exact .inl ⟨rfl, rfl⟩
        | light => exact .inr rfl

theorem cases_of_headerWithin {depth : Nat} (hl : ws.Loaded) (h : headerWithin depth f ws = .ok path ws') :
    ws' = ws ∨ ∃ file, (ws.component f).file? = some file ∧ file.output? = none ∧
      (file.language? = some .cpp ∧ ws' = (Change.edit f (.file (.output file.path))).apply ws ∨
        file.language? = some .light) := by
  cases depth with
  | zero | succ => exact cases_of_headerWith hl h

theorem settle_of_settled (hl : ws.Loaded) {file : SourceFile} (hfile : (ws.component f).file? = some file)
    (hsettled : file.settled = true) :
    settle f ws = .ok () ws := by
  show (load f >>= _) ws = _
  rw [bind_of_ok (load_of_loaded hl f), bind_component, hfile]
  show (if file.settled then pure () else _ : Build Unit) ws = _
  rw [hsettled]
  rfl

section Prepare

variable {F : Prop} {file : SourceFile} {output : Path} {linked : Workspace}

theorem file?_of_settle (hs : ws.Sound) (hl : ws.Loaded) (hfile : (ws.component f).file? = some file)
    (h : settle f ws = .ok () linked) (hne : g ≠ f) :
    (linked.component g).file? = (ws.component g).file? := by
  cases hsettled : file.settled with
  | true =>
    rw [settle_of_settled hl hfile hsettled] at h
    cases h
    rfl
  | false =>
    have hnoted := noted_of_settle hs hl hfile hsettled h
    by_cases hlt : g < ws.size
    · rw [hnoted.component g hlt, noted, Component.file?, Component.file?, kind]
      cases (ws.component g).kind with
      | file s => simp [hne]
      | operation o =>
        dsimp only
        split <;> rfl
      | _ => rfl
    · have hle := Nat.le_of_not_lt hlt
      rw [linked.component_of_size_le (hnoted.size_eq ▸ hle), ws.component_of_size_le hle]

variable (h : Awaits F ws f file) (hrun : prepare f file.path ws = .ok output linked)
include h hrun

/-- **Preparing a header** decides its path and leaves other files alone. -/
theorem Awaits.files :
    Reach (Emits False True False fun _ => False) ws linked ∧ linked.Decided f ∧ .begun f ∈ linked.journal ∧
      ∀ g, g ≠ f → (linked.component g).file? = (ws.component g).file? := by
  obtain ⟨ws₁, file₁, hreach, hs₁, halike, hfile₁, houtput, -, -, hother, hbegun, hsettle⟩ := h.exists_settle hrun
  have hl₁ := halike.loaded (h.primed.loaded trivial)
  obtain ⟨hsettles, -⟩ := (makes_settle (F := False) (L := True) (G := fun _ => True)
    ⟨False.elim, fun _ => hl₁⟩ (lt_size_of_isFile (isFile_of_file? hfile₁)) trivial).of_ok hs₁ hsettle
  have hemits : Reach (Emits False True False fun _ => False) ws₁ linked :=
    hsettles.mono fun _ _ => .settle
  have hdecided : ws₁.Decided f := decided_of_output? (by rw [output?, hfile₁, Option.bind_some, houtput])
  refine ⟨hreach.trans hemits, hemits.decided hs₁ hdecided, hemits.journal.subset hbegun, fun g hne => ?_⟩
  rw [file?_of_settle hs₁ hl₁ hfile₁ hsettle hne, hother g hne]

theorem Awaits.undecided_le {nested : Nat} (hroom : ws.undecided ≤ nested + 1) :
    linked.undecided ≤ nested := by
  obtain ⟨hreach, hdecided, -⟩ := h.files hrun
  have hless := hreach.undecided_lt h.sound h.isFile h.undecided hdecided
  omega

/-- **Preparing a header marks what is used in the file.** -/
theorem Awaits.marked (hnew : file.settled = false) {x c : ComponentId} (hx : ws.DeclaredIn f x)
    (hc : ws.Uses x c) :
    (linked.component c).referenced = true := by
  obtain ⟨ws₁, file₁, -, hs₁, halike, hfile₁, -, hsettled, -, -, -, hsettle⟩ := h.exists_settle hrun
  have hnoted := noted_of_settle hs₁ (halike.loaded (h.primed.loaded trivial)) hfile₁ (hsettled.trans hnew) hsettle
  obtain ⟨m, hm, hmarks, hleads⟩ := halike.uses_iff.mpr hc
  have hmem : c ∈ (Findings.all (ws₁.walk f) (ws₁.findings f)).marked := mem_marked_findings.mpr
    ⟨(x, m), hs₁.mem_mentionsIn (halike.declaredIn_iff.mpr hx) hm, hmarks, hleads⟩
  rw [hnoted.component c (hs₁.targetAt?_fits hleads).1, noted]
  simp [hmem]

end Prepare

theorem bare_includePath (hf : ws.isFile f = true) (path : String) :
    Runs (fun _ _ => True)
      (do
        if (← component f).file?.any (·.included.contains path) then return path
        needReader .cpp
        writePlainLine f ("#include \"" ++ Literal.escape path ++ "\"")
        updateFile f fun f => { f with included := f.included ++ [path] }
        return path) ws fun _ ws' => ws'.bare = ws.bare := by
  refine .component fun hs => .ite (fun _ => .pure rfl) fun _ => ?_
  refine .bind Runs.needReader ?_
  rintro _ ws - - rfl
  have hline : Runs (Prints (fun z => z = f) (fun _ => False) f)
      (writePlainLine f ("#include \"" ++ Literal.escape path ++ "\"")) ws _ :=
    runs_endText (S := fun z => z = f) rfl (hs.fileOf?_self hf) false (by rintro ⟨⟩) _
  refine .bind hline.told ?_
  rintro _ ws₁ _ _ ⟨hreach, _⟩
  have hnote : Runs (fun _ _ => True) (updateFile f fun f => { f with included := f.included ++ [path] })
      ws₁ fun _ ws' => ws'.bare = ws.bare := by
    refine .change (.edit f (.file (.included path))) rfl trivial trivial ?_
    rw [← hreach.bare_eq hs]
    refine ws₁.bare_modify f fun c => ?_
    simp only [Edit.apply, Component.bare]
    cases c.kind <;> rfl
  exact .bind hnote fun _ _ _ _ hsame => .pure hsame

/-! ## Requests inside a request -/

section Requests

variable {F : Prop} {start : Workspace} {G D : ComponentId → Prop} {nested : Nat}

/-- Since `start` the header of `g` was asked for, for the first time, and the request was met. By then,
as before, what is used was marked, and nothing was written on the page of `g` after that. -/
def Requested (F : Prop) (start : Workspace) (g : ComponentId) (ws' : Workspace) : Prop :=
  ∃ nested path ws₁ ws₂, Reach (Emits F True True fun _ => False) start ws₁ ∧ start.Spread ws₁ ∧
    ¬ws₁.Decided g ∧ headerWithin (nested + 1) g ws₁ = .ok path ws₂ ∧ start.Spread ws₂ ∧
    ws₂.journal <+: ws'.journal ∧ ws'.text g = ws₂.text g

theorem Requested.later (h : Requested F start g ws) (hjournal : ws.journal <+: ws'.journal)
    (htext : ws'.text g = ws.text g) : Requested F start g ws' := by
  obtain ⟨nested, path, ws₁, ws₂, hreach, hspread, hundecided, hrun, hspread', hprefix, heq⟩ := h
  exact ⟨nested, path, ws₁, ws₂, hreach, hspread, hundecided, hrun, hspread', hprefix.trans hjournal,
    htext.trans heq⟩

/-- What a workspace is from `start` on, before and after each request: a file whose header was begun
depends on the same files, and of the files among `G`, those that came to be decided were asked for. -/
structure Between (F : Prop) (start : Workspace) (G : ComponentId → Prop) (ws : Workspace) : Prop where
  reach : Reach (Emits F True True fun _ => False) start ws
  spread : start.Spread ws
  ties : ∀ g, start.Decided g → ws.ties? g = start.ties? g
  requested : ∀ g, G g → start.isFile g = true → ¬start.Decided g → ws.Decided g → Requested F start g ws

theorem Between.refl (F : Prop) (start : Workspace) (G : ComponentId → Prop) : Between F start G start :=
  ⟨.refl _ start, .refl start, fun _ _ => rfl, fun _ _ _ hnot hdecided => absurd hdecided hnot⟩

section Step

variable (h₀ : Starts F start) (h : Between F start G ws)
include h₀ h

theorem Between.starts : Starts F ws := h₀.reach h.reach

theorem Between.sound : ws.Sound := h.reach.sound h₀.sound

/-- Files that were asked for stay so if nothing is written on their pages. -/
theorem Between.requested_after (hreach : Reach (Emits F True True D) ws ws')
    (hD : ∀ g, G g → ws.Decided g → D g) (hG : G g) (hfile : start.isFile g = true)
    (hnot : ¬start.Decided g) (hdecided : ws.Decided g) : Requested F start g ws' := by
  refine (h.requested g hG hfile hnot hdecided).later hreach.journal ?_
  have hpage := hreach.page_eq (h.sound h₀) trivial trivial (h.starts h₀).home
    ((h.sound h₀).fileOf?_self hdecided.isFile) (hD g hG hdecided)
  exact congrArg (fun page => page.2.1.text) hpage

/-- Where pages change only, and not those of files that were asked for, nothing changes. -/
theorem Between.after (hreach : Reach (Emits F True True D) ws ws')
    (hD : ∀ g, G g → ws.Decided g → D g) (hb : ws'.bare = ws.bare) : Between F start G ws' where
  reach := h.reach.trans (hreach.mono (Emits.mono fun _ => False.elim))
  spread := h.spread.of_bare hb
  ties g hg := (ties?_of_bare hb g).trans (h.ties g hg)
  requested g hG hfile hnot hdecided := by
    rw [Workspace.Decided, output?_of_bare hb] at hdecided
    exact h.requested_after h₀ hreach hD hG hfile hnot hdecided

/-- **The header of `f` is begun**, that of no other file: if what is used in `f` is marked, nothing is
missing. -/
theorem Between.begin (hreach : Reach (Emits F True True ws.Decided) ws ws') (hundecided : ¬ws.Decided f)
    (hdecided : ws'.Decided f) (hother : ∀ g, g ≠ f → (ws'.component g).file? = (ws.component g).file?)
    (hown : start.Fresh f → ∀ x c, start.DeclaredIn f x → start.Uses x c →
      (ws'.component c).referenced = true) : Between F start (fun g => G g ∧ g ≠ f) ws' := by
  have hs := h.sound h₀
  have hsame : ∀ g, g ≠ f → (ws'.Decided g ↔ ws.Decided g) := fun g hne => by
    rw [Workspace.Decided, output?, hother g hne, ← output?, ← Workspace.Decided]
  refine ⟨h.reach.trans (hreach.mono (Emits.mono fun _ => False.elim)),
    ⟨fun g hg hd x c hx hc => ?_, fun g hg hd => ?_⟩, fun g hg => ?_, fun g hG hfile hnot hd =>
      h.requested_after h₀ hreach (fun _ _ hd => hd) hG.1 hfile hnot ((hsame g hG.2).mp hd)⟩
  · by_cases hne : g = f
    · subst hne
      exact hown hg x c hx hc
    · exact hreach.referenced hs (h.spread.marked g hg ((hsame g hne).mp hd) x c hx hc)
  · have hne : g ≠ f := by
      rintro rfl
      exact hd hdecided
    obtain ⟨file, hfresh⟩ := h.spread.fresh g hg fun hd' => hd ((hsame g hne).mpr hd')
    exact ⟨file, by rw [hother g hne]; exact hfresh.1, hfresh.2⟩
  · have hne : g ≠ f := by
      rintro rfl
      exact hundecided (h.reach.decided h₀.sound hg)
    rw [← h.ties g hg, ties?, hother g hne, ties?]

end Step

/-- What requests do within a depth. -/
def Asks (F : Prop) (start : Workspace) (depth : Nat) : Prop :=
  ∀ {G : ComponentId → Prop} {ws : Workspace} {id : ComponentId}, Between F start G ws →
    ws.undecided ≤ depth → id < ws.size →
    Runs (fun _ _ => True) (headerWithin depth id) ws fun _ ws' => Between F start G ws'

section Asks

variable (hasks : Asks F start nested) (h₀ : Starts F start)
include hasks h₀

/-- **One include**: the header is asked for, and then its line is written. -/
theorem between_include (h : Between F start G ws) (hroom : ws.undecided ≤ nested) (hf : ws.Decided f)
    (hG : ∀ g, G g → g ≠ f) (dep : ComponentId) :
    Runs (Emits F True True fun _ => False) (includeWith (headerWithin nested) f dep) ws
      fun _ ws' => Between F start G ws' := by
  have hrequest : Runs (Emits F True True fun _ => False) (headerAroundWith (headerWithin nested) dep)
      ws fun _ ws' => Between F start G ws' := by
    refine .get fun _ => ?_
    split
    · exact .throw _
    · next file hfile =>
      have hlt := lt_size_of_isFile (isFile_of_fileOf? hfile)
      exact (((runs_headerWithin nested (h.starts h₀).primed hlt).mono (Emits.mono fun _ => False.elim)).both
        (hasks h hroom hlt)).weaken fun _ _ _ _ hboth => hboth.2
  refine .bind hrequest fun path ws₁ hs₁ hreach h₁ => ?_
  have hf₁ := hreach.decided (h.sound h₀) hf
  have hopen : ws₁.Open (· ≠ f) f := ⟨f, hs₁.fileOf?_self hf₁.isFile, hf₁, fun hne => hne rfl⟩
  exact (((makes_includePath (L := True) (H := True) (fun _ => hopen) path).both
    (bare_includePath hf₁.isFile path)).weaken fun _ _ _ hreach' hb =>
      h₁.after h₀ hreach' (fun g hg _ => hG g hg) hb.2).mono (Emits.mono fun _ => False.elim)

/-- **All includes**: before the body of the file is written, the headers in it are asked for. -/
theorem Between.exists_of_staged {linked : Workspace} (h : Between F start G linked)
    (hroom : linked.undecided ≤ nested) (hf : linked.Decided f) (hG : ∀ g, G g → g ≠ f)
    {dependencies : List ComponentId} (hstaged : Staged F nested f dependencies linked ws') :
    ∃ ws₁, Between F start G ws₁ ∧ ws'.bare = ws₁.bare ∧
      ∀ g, g ≠ f → ws₁.isFile g = true → ws'.text g = ws₁.text g := by
  obtain ⟨ws₁, ws₂, hreach, hbare, hincludes, -, hafter, htext, -⟩ := hstaged
  have hs := h.sound h₀
  have h₁ := h.after h₀ hreach (fun g hg _ => hG g hg) hbare
  have hall : Runs (Emits F True True fun _ => False)
      (dependencies.forM fun dep => discard <| includeWith (headerWithin nested) f dep) ws₁
      fun _ ws' => Between F start G ws' := by
    refine .forM h₁ fun dep _ _ _ hreach' h' => .discard (between_include hasks h₀ h' ?_ ?_ hG dep)
    · exact ((hreach'.undecided_le (h₁.sound h₀)).trans (hreach.undecided_le hs)).trans hroom
    · exact hreach'.decided (h₁.sound h₀) (hreach.decided hs hf)
  exact ⟨ws₂, (hall.of_ok (h₁.sound h₀) hincludes).2, hafter, htext⟩

/-- **The first request for the header of a Light source**, with those for what it includes. -/
theorem Between.firstHeader (h : Between F start G ws) (hroom : ws.undecided ≤ nested + 1) {file : SourceFile}
    (hawaits : Awaits F ws f file) (hrun : headerWithin (nested + 1) f ws = .ok path ws') :
    Between F start (fun g => G g ∧ g ≠ f) ws' := by
  obtain ⟨hreach, output, linked, file', -, -, -, hprepare, -, -, hstaged, -⟩ := hawaits.firstHeader hrun
  obtain ⟨-, hdecided, -, hother⟩ := hawaits.files hprepare
  have hlinked : Between F start (fun g => G g ∧ g ≠ f) linked := by
    refine h.begin h₀ (hawaits.reach_of_prepare hprepare) hawaits.undecided hdecided hother
      fun hfresh x c hx hc => ?_
    have hstart := h.reach.alike_of_emits h₀.sound trivial
    obtain ⟨_, hfile', -, -, hnew⟩ := h.spread.fresh f hfresh hawaits.undecided
    rw [hawaits.source] at hfile'
    cases hfile'
    exact hawaits.marked hprepare hnew (hstart.declaredIn_iff.mpr hx) (hstart.uses_iff.mpr hc)
  obtain ⟨ws₂, h₂, hafter, htext⟩ := hlinked.exists_of_staged hasks h₀
    (hawaits.undecided_le hprepare hroom) hdecided (fun g hG => hG.2) hstaged
  refine ⟨h.reach.trans (hreach.mono (Emits.mono fun _ => False.elim)), h₂.spread.of_bare hafter,
    fun g hg => (ties?_of_bare hafter g).trans (h₂.ties g hg), fun g hG hgfile hnot hd => ?_⟩
  have hd₂ : ws₂.Decided g := by
    rwa [Workspace.Decided, output?_of_bare hafter] at hd
  have hjournal : ws'.bare.journal = ws₂.bare.journal := congrArg journal hafter
  exact (h₂.requested g hG hgfile hnot hd₂).later
    (show ws₂.journal <+: ws'.bare.journal from hjournal ▸ List.prefix_rfl)
    (htext g hG.2 hd₂.isFile)

end Asks

/-- **Whatever is decided was asked for**, by induction on how many requests can be inside one another. -/
theorem asks (h₀ : Starts F start) (depth : Nat) : Asks F start depth := by
  induction depth with
  | zero =>
    intro G ws id h hroom hid
    refine ((runs_headerWithin 0 (h.starts h₀).primed hid).given.weaken ?_).mono fun _ _ _ => trivial
    rintro path ws' - - ⟨hrun, -⟩
    rcases cases_of_headerWithin ((h.starts h₀).primed.loaded trivial) hrun with rfl | ⟨file, hfile, houtput, -⟩
    · exact h
    · -- no level is left only if every file is decided
      exact absurd (undecided_pos hfile houtput) (Nat.not_lt.mpr hroom)
  | succ nested ih =>
    intro G ws id h hroom hid
    refine ((runs_headerWithin (nested + 1) (h.starts h₀).primed hid).given.weaken ?_).mono fun _ _ _ => trivial
    rintro path ws' - hreach ⟨hrun, output, hout, -⟩
    rcases cases_of_headerWithin ((h.starts h₀).primed.loaded trivial) hrun with rfl | ⟨file, hfile, houtput, hcases⟩
    · exact h
    have hundecided := not_decided hfile houtput
    have h' : Between F start (fun g => G g ∧ g ≠ id) ws' := by
      rcases hcases with ⟨hcpp, rfl⟩ | hlight
      · -- the path of a C++ header is decided, that of no other file
        refine h.begin h₀ hreach hundecided (decided_of_output? hout) (fun g hne => ?_)
          fun hid => ?_
        · rw [Change.apply, component_modify_eq, if_neg fun hand => hne hand.1]
        · obtain ⟨_, hfile', hlight, -⟩ := h.spread.fresh id hid hundecided
          rw [hfile, Option.some.injEq] at hfile'
          rw [← hfile', hcpp] at hlight
          cases hlight
      · exact h.firstHeader ih h₀ hroom ⟨h.starts h₀, hfile, hlight, houtput⟩ hrun
    refine { h' with requested := fun g hG hgfile hnot hd => ?_ }
    by_cases hne : g = id
    · subst hne
      exact ⟨nested, path, ws, ws', h.reach, h.spread, hundecided, hrun, h'.spread, List.prefix_rfl, rfl⟩
    · exact h'.requested g ⟨hG, hne⟩ hgfile hnot hd

end Requests

end Build

end LightHeaders
