import LightHeaders.Proofs.Entries

set_option autoImplicit false

/-! # Histories of a workspace

A workspace is worked on by calls: each function of the library is one, and so is any change of the
disk from outside (`Call`). A **history** is a row of calls from an empty workspace on; a call that
fails leaves what it did before, and the history goes on (`History`).

What holds in every history is read off the changes that calls make (`Call.makes`). Three kinds of
history are of interest beside all of them. In a **filed** history files are made only for what is at a
path. In a **driven** history text is written only by way of headers. In a **sourced** history
components come from files only, and no name that is given from outside holds a line feed.
-/

namespace LightHeaders

open Workspace

/-! ## The changes that calls make -/

/-- The kind is no file. -/
def Kind.NoFile (k : Kind) : Prop := k.isFile = false

/-- The changes that calls make. Kinds of components that are given from outside meet `K`; where `F`
holds the history is sourced, and where `H` holds it is driven. -/
inductive Works (K : Kind → Prop) (F H : Prop) (ws : Workspace) : Change → Prop
  | emit {D : ComponentId → Prop} {c : Change} (mem : Emits F False H D ws c) : Works K F H ws c
  | plan {c : Change} (mem : Plans False False (fun _ => True) ws c) : Works K F H ws c
  | root (name : String) {kind : Kind} (free : ¬F) (given : K kind) : Works K F H ws (.root name kind)
  | below (parent : ComponentId) (name : String) {kind : Kind}
      (instruction? : Option InstructionId) (free : ¬F) (given : K kind) :
      Works K F H ws (.below parent name kind instruction?)
  | plant {i : Instruction} (one : F → i.OneLine) : Works K F H ws (.plant i)
  | plantBelow (parent : InstructionId) {i : Instruction} (one : F → i.OneLine) :
      Works K F H ws (.plantBelow parent i)
  | rename (id : InstructionId) {name : String} (one : F → OneLine name) :
      Works K F H ws (.rename id name)
  | forward (id : ComponentId) {target : ComponentId} (isFile : H → ws.isFile target = true) :
      Works K F H ws (.edit id (.forward target))
  | prune (flag : Bool) : Works K F H ws (.prune flag)
  | disk (d : Disk) : Works K F H ws (.disk d)

section Works

variable {K : Kind → Prop} {F H : Prop} {ws ws' : Workspace} {c : Change}

theorem Kind.new_file (path : Path) (isDirectory : Bool) :
    (Kind.file { path, isDirectory }).New where
  one := trivial
  unsettled := trivial
  library := by rintro _ ⟨⟩; rfl

variable {S : Spelling → Prop}

theorem Plans.plain {B E : Prop} (h : Plans B E S ws c) : c.Plain ws := by
  cases h with
  | @asked parent? => cases parent? <;> exact ⟨by rintro ⟨⟩, Kind.new_file _ _⟩
  | found => exact ⟨by rintro ⟨⟩, Kind.new_file _ _⟩
  | _ => exact trivial

theorem Plans.neat {B E : Prop} (h : Plans B E S ws c) : c.Neat ws := by
  cases h with
  | @asked parent? => cases parent? <;> exact trivial
  | owned => exact fun hpage => by cases hpage
  | _ => exact trivial

/-- What is known of a component where calls edit it. -/
def Edit.Licensed (ws : Workspace) (id : ComponentId) : Edit → Prop
  | .file (.language l) => ws.Readable id l
  | .file (.output p) => ws.Suits id p
  | .file (.dependency _) => ∀ f, (ws.component id).file? = some f → f.settled = true
  | .file (.project p) => p < ws.projects.size ∧ ∀ other, ws.Decided other → ws.outermost other ≠ id
  | .resolved target? => (ws.action? id = some .giveBack → target? = none) ∧ ws.InSettled id
  | _ => True

theorem Works.licensed {id : ComponentId} {e : Edit} (h : Works K F H ws (.edit id e)) :
    e.Licensed ws id := by
  cases h with
  | emit mem =>
    cases mem with
    | settle mem =>
      cases mem with
      | load mem =>
        cases mem with
        | language readable => exact readable
        | _ => exact trivial
      | dependency _ settled => exact settled
      | resolved _ _ _ back settled => exact ⟨back, settled⟩
      | _ => exact trivial
    | page isPage => cases isPage <;> exact trivial
    | handOn => exact trivial
    | output _ _ suits => exact suits
  | plan mem =>
    obtain ⟨_, rfl, there, new⟩ := mem.edit
    exact ⟨there, new⟩
  | forward => exact trivial

theorem Works.plain (h : Works K F H ws c) (hF : F) : c.Plain ws := by
  cases h with
  | emit mem => exact mem.plain hF
  | plan mem => exact mem.plain
  | root _ free | below _ _ _ free => exact absurd hF free
  | plant one | plantBelow _ one | rename _ one => exact one hF
  | _ => exact trivial

theorem Works.neat (h : Works K F H ws c) (hH : H) (hfiles : ws.ForwardsToFiles) : c.Neat ws := by
  cases h with
  | emit mem => exact mem.neat hH hfiles
  | plan mem => exact mem.neat
  | forward _ isFile => exact isFile hH
  | _ => exact trivial

/-- **Calls keep what is known.** -/
theorem Reach.primed_works (h : Reach (Works K F H) ws ws') (hs : ws.Sound)
    (hp : ws.Primed F False H) : ws'.Primed F False H where
  plain hF := h.invariant hs (hp.plain hF) fun _ c _ legal hc hplain =>
    hplain.apply c legal (hc.plain hF)
  loaded := False.elim
  tidy hH := h.invariant hs (hp.tidy hH) fun _ _ hs legal hc htidy =>
    htidy.apply hs legal (hc.neat hH htidy.forwards)

end Works

/-! ## Calls -/

/-- What can be asked of a workspace. -/
inductive Call where
  /-- The disk is changed from outside. -/
  | setDisk (d : Disk)
  | setActive (id? : Option ProjectId)
  | setPruning (flag : Bool)
  | plant (i : Instruction)
  | plantBelow (parent : InstructionId) (i : Instruction)
  | setChildName (source : InstructionId) (pos : Nat) (text : String)
  | addRoot (name : String) (kind : Kind)
  | addFile (parent? : Option ComponentId) (name : String) (path : Path)
  | addComponent (start : ComponentId) (name : String) (kind : Kind)
      (instruction? : Option InstructionId)
  | findComponent (start : ComponentId) (name : String)
  | base (start : ComponentId) (name : String)
  | targetNamed (start : ComponentId) (name : String)
  | targetIfAny (start : ComponentId) (name : String)
  | componentNamed (start : ComponentId) (name : String)
  | typeNamed (scope : ComponentId) (name : String)
  | fit (scope : ComponentId) (subject request : String)
  | fitChild (scope : ComponentId) (request : String) (source : InstructionId) (pos : Nat)
  | markReferenced (id : ComponentId)
  | useLibrary (file : ComponentId) (library : String)
  | forward (id target : ComponentId)
  | load (id : ComponentId)
  | settle (id : ComponentId)
  | write (id : ComponentId) (text : String)
  | endLine (id : ComponentId) (stamp : Bool)
  | handOn (id : ComponentId)
  | clear (id : ComponentId)
  | render (id : ComponentId)
  | header (id : ComponentId)
  | headerAround (id : ComponentId)
  | includeHeader (file id : ComponentId)
  | openProject (settings : Settings) (name : String) (root : Path)
  | registerProject (name : String) (root outputDir : Path) (spelling : Spelling)
  | compile (settings : Settings) (entry : Path)

namespace Call

/-- The work that a call asks for. -/
def run : Call → Build Unit
  | .setDisk d => modify fun ws => { ws with disk := d }
  | .setActive id? => modify fun ws => { ws with active? := id? }
  | .setPruning flag => modify fun ws => { ws with omitUnreferenced := flag }
  | .plant i => Build.updateForest fun f => (f.add i).2
  | .plantBelow parent i => Build.updateForest fun f => (f.addChild parent i).2
  | .setChildName source pos text => Build.updateForest fun f => f.setChildName source pos text
  | .addRoot name kind => discard <| Build.addRoot name kind
  | .addFile parent? name path => discard <| Build.addFile parent? name path
  | .addComponent start name kind instruction? =>
    discard <| Build.addComponent start name kind instruction?
  | .findComponent start name => discard <| Build.findComponent? start name
  | .base start name => discard <| Build.base start name
  | .targetNamed start name => discard <| Build.targetNamed start name
  | .targetIfAny start name => discard <| Build.targetNamed? start name
  | .componentNamed start name => discard <| Build.componentNamed start name
  | .typeNamed scope name => discard <| Build.typeNamed scope name
  | .fit scope subject request => discard <| Build.fit scope subject request
  | .fitChild scope request source pos => Build.fitChild scope request source pos
  | .markReferenced id => Build.markReferenced id
  | .useLibrary file library => Build.useLibrary file library
  | .forward id target => Build.forward id target
  | .load id => Build.load id
  | .settle id => Build.settle id
  | .write id text => Build.write id text
  | .endLine id stamp => discard <| Build.endLine id stamp
  | .handOn id => discard <| Build.handOn id
  | .clear id => Build.clear id
  | .render id => discard <| Build.render id
  | .header id => discard <| Build.header id
  | .headerAround id => discard <| Build.headerAround id
  | .includeHeader file id => discard <| Build.includeHeader file id
  | .openProject settings name root => discard <| Build.openProject settings name root
  | .registerProject name root outputDir spelling =>
    discard <| Build.registerProject name root outputDir spelling
  | .compile settings entry => discard <| Build.compile settings entry

/-- What the call refers to is there, and an instruction comes without children. -/
def Valid (ws : Workspace) : Call → Prop
  | .plant i => i.children = []
  | .plantBelow parent i => parent < ws.forest.size ∧ i.children = []
  | .addFile parent? _ _ => ∀ parent, parent? = some parent → parent < ws.size
  | .addComponent start _ _ instruction? =>
    start < ws.size ∧ ∀ i, instruction? = some i → i < ws.forest.size
  | .findComponent start _ | .base start _ => start < ws.size
  | .load id | .settle id | .header id => id < ws.size
  | _ => True

instance (ws : Workspace) (c : Call) : Decidable (c.Valid ws) := by
  cases c with
  | addFile parent? => exact inferInstanceAs (Decidable (∀ parent ∈ parent?, parent < ws.size))
  | addComponent start _ _ instruction? =>
    exact inferInstanceAs (Decidable (start < ws.size ∧ ∀ i ∈ instruction?, i < ws.forest.size))
  | _ =>
    dsimp only [Valid]
    infer_instance

/-- The call makes components from files only, and no name that it gives holds a line feed. -/
def Sourced : Call → Prop
  | .plant i | .plantBelow _ i => i.OneLine
  | .setChildName _ _ text => OneLine text
  | .addRoot .. | .addComponent .. => False
  | .findComponent _ name | .base _ name | .targetNamed _ name | .targetIfAny _ name
  | .componentNamed _ name | .typeNamed _ name => OneLine name
  | .fit _ subject request => OneLine subject ∧ OneLine request
  | .fitChild _ request _ _ => OneLine request
  | .useLibrary _ library => OneLine library
  | _ => True

instance (c : Call) : Decidable c.Sourced := by
  cases c <;> dsimp only [Sourced] <;> infer_instance

/-- The kind of the component that the call makes, if it is given with the call, meets `K`. -/
def Brings (K : Kind → Prop) : Call → Prop
  | .addRoot _ kind | .addComponent _ _ kind _ => K kind
  | _ => True

theorem brings_true (c : Call) : c.Brings fun _ => True := by
  cases c <;> exact trivial

theorem Sourced.brings {K : Kind → Prop} {c : Call} (h : c.Sourced) : c.Brings K := by
  cases c with
  | addRoot | addComponent => exact h.elim
  | _ => exact trivial

/-- The call makes files only for what is at a path. -/
def Filed : Call → Prop
  | .addRoot _ kind | .addComponent _ _ kind _ => kind.isFile = false
  | _ => True

instance (c : Call) : Decidable c.Filed := by
  cases c <;> dsimp only [Filed] <;> infer_instance

theorem Filed.brings {c : Call} (h : c.Filed) : c.Brings Kind.NoFile := by
  cases c <;> exact h

/-- The call writes text only by way of headers, and forwards it to files only. -/
def Driven (ws : Workspace) : Call → Prop
  | .forward _ target => ws.isFile target = true
  | .write .. | .endLine .. | .handOn _ | .clear _ | .render _ | .includeHeader .. => False
  | _ => True

instance (ws : Workspace) (c : Call) : Decidable (c.Driven ws) := by
  cases c <;> dsimp only [Driven] <;> infer_instance

/-- The call does not forward text or name an instruction anew by itself. -/
def AsRead : Call → Prop
  | .forward .. | .setChildName .. => False
  | _ => True

instance (c : Call) : Decidable c.AsRead := by
  cases c <;> dsimp only [AsRead] <;> infer_instance

/-- The changes that the call makes by itself, beside those of reading, writing headers and planning. -/
inductive Gives : Call → Change → Prop
  | disk (d : Disk) : Gives (.setDisk d) (.disk d)
  | prune (flag : Bool) : Gives (.setPruning flag) (.prune flag)
  | plant (i : Instruction) : Gives (.plant i) (.plant i)
  | plantBelow (parent : InstructionId) (i : Instruction) : Gives (.plantBelow parent i) (.plantBelow parent i)
  | rename {source : InstructionId} {pos : Nat} (text : String) (id : InstructionId) :
      Gives (.setChildName source pos text) (.rename id text)
  | root (name : String) (kind : Kind) : Gives (.addRoot name kind) (.root name kind)
  | below {start : ComponentId} {name : String} (kind : Kind) (instruction? : Option InstructionId)
      (parent : ComponentId) (last : String) :
      Gives (.addComponent start name kind instruction?) (.below parent last kind instruction?)
  | forward (id target : ComponentId) : Gives (.forward id target) (.edit id (.forward target))

/-- The changes that the call makes. -/
inductive Does (F H : Prop) (c : Call) (ws : Workspace) : Change → Prop
  | emit {D : ComponentId → Prop} {x : Change} (mem : Emits F False H D ws x) : Does F H c ws x
  | plan {x : Change} (mem : Plans False False (fun _ => True) ws x) : Does F H c ws x
  | give {x : Change} (mem : c.Gives x) (sourced : F → c.Sourced) (driven : H → c.Driven ws) : Does F H c ws x

variable {K : Kind → Prop} {F H : Prop} {c : Call} {ws : Workspace}

theorem Does.works {x : Change} (h : c.Does F H ws x) (hK : c.Brings K) : Works K F H ws x := by
  cases h with
  | emit mem => exact .emit mem
  | plan mem => exact .plan mem
  | give mem sourced driven =>
    cases mem with
    | disk d => exact .disk d
    | prune flag => exact .prune flag
    | plant i => exact .plant sourced
    | plantBelow parent i => exact .plantBelow parent sourced
    | rename text id => exact .rename id sourced
    | root name kind => exact .root name sourced hK
    | below kind instruction? parent last => exact .below parent last instruction? sourced hK
    | forward id target => exact .forward id driven

end Call

namespace Build

variable {F H : Prop} {c : Call} {ws : Workspace} {α : Type} {m : Build α} {Q : α → Workspace → Prop}

theorem Runs.does {D : ComponentId → Prop} (h : Runs (Emits F False H D) m ws Q) :
    Runs (c.Does F H) m ws Q :=
  h.mono fun _ _ h => .emit h

theorem Makes.settled (h : Makes (Settles F False fun _ => True) m ws) : Makes (c.Does F H) m ws :=
  h.mono fun _ _ h => .emit (D := fun _ => False) (.settle h)

theorem Runs.planned (h : Runs (Plans False False (fun _ => True)) m ws Q) : Runs (c.Does F H) m ws Q :=
  h.mono fun _ _ h => .plan h

end Build

namespace Call

open Build

variable {K : Kind → Prop} {F H : Prop} {c : Call} {ws : Workspace}

variable {start : ComponentId} {name : String}

theorem runs_base (hs : ws.Sound) (hr : ws.Ready F False) (hname : F → OneLine name)
    (hstart : start < ws.size) :
    Runs (Settles F False fun _ => True) (Build.base start name) ws fun r ws' => r.1 < ws'.size :=
  (runs_baseWith (loadsFrom_settles hs hr) (notesLibraries_settles F False _) hname hstart).weaken
    fun _ _ _ _ h => h.1

theorem makes_targetIfAny (hs : ws.Sound) (hr : ws.Ready F False) (hname : F → OneLine name) :
    Makes (Settles F False fun _ => True) (Build.targetNamed? start name) ws := by
  refine .bind (runs_lookUpWith start (loadsFrom_settles hs hr) (notesLibraries_settles F False _)
    hname) fun r _ _ _ _ => ?_
  split <;> exact .pure trivial

theorem makes_addComponent (hs : ws.Sound) (hr : ws.Ready F False) (hF : ¬F) (hstart : start < ws.size)
    (name : String) (kind : Kind) {instruction? : Option InstructionId}
    (hi : ∀ i, instruction? = some i → i < ws.forest.size) :
    Makes ((addComponent start name kind instruction?).Does F H)
      (Build.addComponent start name kind instruction?) ws := by
  refine .bind ((runs_base hs hr (fun h => absurd h hF) hstart).mono fun _ _ h =>
    .emit (D := fun _ => False) (.settle h)) fun r ws₁ _ hreach₁ hr₁ => ?_
  refine (Runs.addBelow ⟨hr₁, fun i h => ?_⟩ (.give (.below kind _ _ _) hF fun _ => trivial)).makes
  exact lt_of_lt_of_le (hi i h) hreach₁.extension.forest_le

theorem makes_setChildName (source : InstructionId) (pos : Nat) {text : String} (htext : F → OneLine text) :
    Makes ((setChildName source pos text).Does F H)
      (updateForest fun f => f.setChildName source pos text) ws := by
  intro _
  have hrun : updateForest (fun f => f.setChildName source pos text) ws
      = .ok () { ws with forest := ws.forest.setChildName source pos text } := rfl
  rw [hrun, Forest.setChildName]
  cases ws.forest.childId? source pos with
  | none => exact ⟨.refl _ ws, trivial⟩
  | some child =>
    exact ⟨.single (.rename child text) trivial (.give (.rename text child) htext fun _ => trivial), trivial⟩

theorem makes_compile (hp : ws.Primed F False H) (settings : Settings) (entry : Path) :
    Makes ((compile settings entry).Does F H) (Build.compile settings entry) ws := by
  refine .of_sound fun hs => ?_
  rw [compile_eq]
  refine .bind (.planned (runs_entryFile False.elim trivial False.elim False.elim False.elim))
    fun found ws₁ _ hreach₁ hfound => ?_
  have hp₁ := (hreach₁.mono fun _ _ h => h.works (K := fun _ => True) trivial).primed_works hs hp
  exact (runs_translate hp₁ found.1 hfound.1).makes.does

/-- **What calls do.** -/
theorem makes (c : Call) (hp : ws.Primed F False H) (valid : c.Valid ws) (hF : F → c.Sourced)
    (hH : H → c.Driven ws) : Makes (c.Does F H) c.run ws := by
  refine .of_sound fun hs => ?_
  have hr := hp.toReady
  cases c with
  | setDisk d => exact Makes.change (.disk d) rfl trivial (.give (.disk d) hF hH)
  | setActive id? => exact Makes.change (.active id?) rfl trivial (.plan (.active id?))
  | setPruning flag => exact Makes.change (.prune flag) rfl trivial (.give (.prune flag) hF hH)
  | plant i => exact Makes.change (.plant i) rfl valid (.give (.plant i) hF hH)
  | plantBelow parent i => exact Makes.change (.plantBelow parent i) rfl valid (.give (.plantBelow parent i) hF hH)
  | setChildName source pos text => exact makes_setChildName source pos hF
  | addRoot name kind => exact Makes.discard (Runs.addRoot (.give (.root name kind) hF hH)).makes
  | addFile parent? name path =>
    have hasked : ws.Asked False False parent? name path := by
      cases parent? <;> exact ⟨False.elim, False.elim⟩
    exact Makes.discard (Runs.planned (runs_addFile valid hasked)).makes
  | addComponent start name kind instruction? =>
    exact Makes.discard (makes_addComponent hs hr hF valid.1 name kind valid.2)
  | findComponent start name =>
    refine Makes.settled (Makes.discard (.bind (runs_base hs hr hF valid) ?_))
    exact fun _ _ _ _ _ => .component fun _ => .pure trivial
  | base start name => exact Makes.settled (Makes.discard (runs_base hs hr hF valid).makes)
  | targetNamed start name => exact Makes.settled (Makes.discard (runs_targetNamed hr hF).makes)
  | targetIfAny start name => exact Makes.settled (Makes.discard (makes_targetIfAny hs hr hF))
  | componentNamed start name => exact Makes.settled (Makes.discard (runs_componentNamed hr hF).makes)
  | typeNamed scope name => exact Makes.settled (Makes.discard (makes_typeNamed hr scope hF))
  | fit scope subject request =>
    exact Makes.settled (Makes.discard
      (runs_fit hr scope (fun h => (hF h).1) fun h => (hF h).2).makes)
  | fitChild scope request source pos => exact Makes.settled (makes_fitChild hr scope hF source pos)
  | markReferenced id => exact Makes.settled (makes_markReferenced id)
  | useLibrary file library =>
    exact Makes.settled (Makes.editFile (.library library) (.library file hF) rfl)
  | forward id target => exact Makes.edit (.forward target) trivial (.give (.forward id target) hF hH) rfl
  | load id => exact Makes.settled ((makes_load valid).mono fun _ _ h => .load h not_false)
  | settle id => exact Makes.settled (makes_settle hr valid trivial)
  | write id text => exact .does (makes_write (D := fun _ => False) (fun h => (hH h).elim) text)
  | endLine id stamp =>
    exact .does (Makes.discard (makes_endLine (D := fun _ => False) (fun h => (hH h).elim) stamp))
  | handOn id =>
    exact .does (Makes.discard (makes_handOn (D := fun _ => False) fun h => (hH h).elim))
  | clear id =>
    exact .does (makes_clear (D := fun _ => False) (fun h => (hH h).elim) fun h => (hH h).elim)
  | render id => exact .does (Makes.discard (makes_render hp fun h => (hH h).elim))
  | header id => exact .does (Makes.discard (runs_header hp valid).makes)
  | headerAround id => exact .does (Makes.discard (makes_headerAround hp id))
  | includeHeader file id =>
    exact .does (Makes.discard (makes_includeHeader hp (fun h => (hH h).elim) id))
  | openProject settings name root =>
    exact Makes.discard (Runs.planned (runs_openProject trivial fun _ _ => ⟨False.elim, False.elim⟩)).makes
  | registerProject name root outputDir spelling =>
    exact Makes.discard
      (Runs.planned (runs_registerProject ⟨False.elim, False.elim⟩ outputDir trivial)).makes
  | compile settings entry => exact Makes.discard (makes_compile hp settings entry)

end Call

/-! ## Histories -/

/-- From `ws`, calls that meet `A` where they are made lead to `ws'`. -/
def Continues (A : Workspace → Call → Prop) : Workspace → Workspace → Prop :=
  Relation.ReflTransGen fun ws ws' => ∃ c : Call, c.Valid ws ∧ A ws c ∧ ws' = c.run.after ws

instance (c : Call) : Decidable (∃ id target, c = .forward id target) := by
  cases c with
  | forward id target => exact isTrue ⟨id, target, rfl⟩
  | _ => exact isFalse (by rintro ⟨_, _, ⟨⟩⟩)

/-- The workspace after a row of calls. -/
def Call.play (calls : List Call) (ws : Workspace) : Workspace :=
  calls.foldl (fun ws c => c.run.after ws) ws

/-- The calls of a row meet `A` where they are made. -/
def Call.Plays (A : Workspace → Call → Prop) : Workspace → List Call → Prop
  | _, [] => True
  | ws, c :: calls => (c.Valid ws ∧ A ws c) ∧ Plays A (c.run.after ws) calls

instance Call.decidablePlays (A : Workspace → Call → Prop) [∀ ws c, Decidable (A ws c)] :
    ∀ ws calls, Decidable (Call.Plays A ws calls)
  | _, [] => isTrue trivial
  | ws, c :: calls =>
    have := decidablePlays A (c.run.after ws) calls
    inferInstanceAs (Decidable ((c.Valid ws ∧ A ws c) ∧ _))

variable {A : Workspace → Call → Prop} {calls : List Call} {ws : Workspace}

theorem Continues.play (h : Call.Plays A ws calls) : Continues A ws (Call.play calls ws) := by
  induction calls generalizing ws with
  | nil => exact Relation.ReflTransGen.refl
  | cons c calls ih =>
    exact Relation.ReflTransGen.head ⟨c, h.1.1, h.1.2, rfl⟩ (ih h.2)

/-- Calls that meet `A` where they are made lead from an empty workspace to `ws`. -/
def History (A : Workspace → Call → Prop) (ws : Workspace) : Prop :=
  ∃ settings disk readers, Continues A (new settings disk readers) ws

theorem History.play {settings : Settings} {disk : Disk} {readers : List Language}
    (h : Call.Plays A (new settings disk readers) calls) :
    History A (Call.play calls (new settings disk readers)) :=
  ⟨settings, disk, readers, .play h⟩

theorem History.mono {B : Workspace → Call → Prop} (h : History A ws) (hAB : ∀ ws c, A ws c → B ws c) :
    History B ws := by
  obtain ⟨settings, disk, readers, hcontinues⟩ := h
  refine ⟨settings, disk, readers, ?_⟩
  induction hcontinues with
  | refl => exact .refl
  | tail _ hstep ih =>
    obtain ⟨c, hvalid, hc, heq⟩ := hstep
    exact ih.tail ⟨c, hvalid, hAB _ c hc, heq⟩

/-- Files are made only for what is at a path. -/
def FiledCall (_ : Workspace) (c : Call) : Prop := c.Filed

instance (ws : Workspace) (c : Call) : Decidable (FiledCall ws c) := inferInstanceAs (Decidable c.Filed)

/-- Text is written only by way of headers. -/
def DrivenCall (ws : Workspace) (c : Call) : Prop := c.Driven ws

instance (ws : Workspace) (c : Call) : Decidable (DrivenCall ws c) := inferInstanceAs (Decidable (c.Driven ws))

/-- Text is written only by way of headers, and components come from files only. -/
def SourcedCall (ws : Workspace) (c : Call) : Prop := c.Driven ws ∧ c.Sourced

instance (ws : Workspace) (c : Call) : Decidable (SourcedCall ws c) :=
  inferInstanceAs (Decidable (c.Driven ws ∧ c.Sourced))

/-- Text is forwarded and instructions have names as sources say. -/
def AsReadCall (_ : Workspace) (c : Call) : Prop := c.AsRead

instance (ws : Workspace) (c : Call) : Decidable (AsReadCall ws c) := inferInstanceAs (Decidable c.AsRead)

theorem Workspace.component_new (settings : Settings) (disk : Disk) (readers : List Language)
    (id : ComponentId) : (new settings disk readers).component id = default :=
  (new settings disk readers).component_of_size_le (Nat.zero_le id)

theorem Workspace.sound_new (settings : Settings) (disk : Disk) (readers : List Language) :
    (new settings disk readers).Sound where
  parent_lt hp := by
    rw [component_new] at hp
    cases hp
  child hchild := by
    rw [component_new] at hchild
    cases hchild
  listed hmem := by
    rw [component_new] at hmem
    cases hmem
  nodup id := by
    rw [component_new]
    exact List.nodup_nil
  instruction_lt hi := by
    rw [component_new] at hi
    cases hi
  project_lt p hp := by simp [new] at hp
  forest :=
    have hnone : ∀ i, (Forest.get {} i).children = [] := fun i =>
      Forest.children_of_size_le {} (Nat.zero_le i)
    { later := fun {id c} hmem => absurd hmem (hnone id ▸ List.not_mem_nil)
      nodup := fun id => hnone id ▸ List.nodup_nil
      parent_unique := fun {a b c} hmem => absurd hmem (hnone a ▸ List.not_mem_nil) }
  journal := ⟨fun _ hmem => (List.not_mem_nil hmem).elim, List.nodup_nil⟩

theorem Workspace.plain_new (settings : Settings) (disk : Disk) (readers : List Language) :
    (new settings disk readers).Plain where
  name id _ := by
    rw [component_new]
    exact List.not_mem_nil
  kind id := by
    rw [Workspace.kind, component_new]
    exact trivial
  target id o t hk := by
    rw [Workspace.kind, component_new] at hk
    cases hk
  param id s hk := by
    rw [Workspace.kind, component_new] at hk
    cases hk
  library id f hf := by
    rw [component_new] at hf
    cases hf
  forest i := by
    have hi : (Forest.get {} i) = default := by simp [Forest.get]
    rw [new, hi]
    exact ⟨List.not_mem_nil, by rintro _ ⟨⟩⟩

theorem Workspace.primed_new (F H : Prop) (settings : Settings) (disk : Disk)
    (readers : List Language) : (new settings disk readers).Primed F False H := by
  refine ⟨⟨fun _ => plain_new settings disk readers, False.elim⟩, fun _ => ⟨?_, ?_⟩⟩
  · intro id target hforward
    rw [component_new] at hforward
    cases hforward
  · intro id _
    rw [component_new]
    exact ⟨rfl, fun _ => rfl⟩

section Histories

variable {A : Workspace → Call → Prop} {K : Kind → Prop} {F H : Prop} {ws ws' : Workspace}

/-- **What continuing a history does.** -/
theorem Continues.does (h : Continues A ws ws') (hF : ∀ ws c, A ws c → F → c.Sourced)
    (hH : ∀ ws c, A ws c → H → c.Driven ws) (hs : ws.Sound) (hp : ws.Primed F False H) :
    Reach (fun ws x => ∃ start c, A start c ∧ c.Does F H ws x) ws ws' := by
  induction h with
  | refl => exact .refl _ ws
  | @tail next _ _ step ih =>
    obtain ⟨c, valid, allowed, rfl⟩ := step
    have hworks : Reach (Works (fun _ => True) F H) ws next := by
      refine ih.mono ?_
      rintro _ _ ⟨_, c, -, hdoes⟩
      exact hdoes.works c.brings_true
    have hmakes := c.makes (hworks.primed_works hs hp) valid (hF next c allowed) (hH next c allowed)
    exact ih.trans ((hmakes.reach_after (ih.sound hs)).mono fun _ _ h => ⟨next, c, allowed, h⟩)

theorem Continues.works (h : Continues A ws ws') (hK : ∀ ws c, A ws c → c.Brings K)
    (hF : ∀ ws c, A ws c → F → c.Sourced) (hH : ∀ ws c, A ws c → H → c.Driven ws) (hs : ws.Sound)
    (hp : ws.Primed F False H) : Reach (Works K F H) ws ws' := by
  refine (h.does hF hH hs hp).mono ?_
  rintro _ _ ⟨start, c, allowed, hdoes⟩
  exact hdoes.works (hK start c allowed)

theorem Continues.reach (h : Continues A ws ws') (hF : ∀ ws c, A ws c → F → c.Sourced)
    (hH : ∀ ws c, A ws c → H → c.Driven ws) (hs : ws.Sound) (hp : ws.Primed F False H) :
    Reach (Works (fun _ => True) F H) ws ws' :=
  h.works (fun _ c _ => c.brings_true) hF hH hs hp

theorem History.known (h : History A ws) (hF : ∀ ws c, A ws c → F → c.Sourced)
    (hH : ∀ ws c, A ws c → H → c.Driven ws) : ws.Sound ∧ ws.Primed F False H := by
  obtain ⟨settings, disk, readers, hcontinues⟩ := h
  have hs := sound_new settings disk readers
  have hp := primed_new F H settings disk readers
  have hreach := hcontinues.reach hF hH hs hp
  exact ⟨hreach.sound hs, hreach.primed_works hs hp⟩

theorem History.sound (h : History A ws) : ws.Sound :=
  (h.known (F := False) (H := False) (fun _ _ _ => False.elim) fun _ _ _ => False.elim).1

/-- What holds of an empty workspace and is kept by every change that calls make. -/
theorem History.invariant {I : Workspace → Prop} (h : History A ws) (hK : ∀ ws c, A ws c → c.Brings K)
    (hnew : ∀ settings disk readers, I (new settings disk readers))
    (hstep : ∀ ws (c : Change), ws.Sound → c.Legal ws → Works K False False ws c → I ws → I (c.apply ws)) :
    I ws := by
  obtain ⟨settings, disk, readers, hcontinues⟩ := h
  have hs := sound_new settings disk readers
  have hreach := hcontinues.works hK (fun _ _ _ => False.elim) (fun _ _ _ => False.elim) hs
    (primed_new False False settings disk readers)
  exact hreach.invariant hs (hnew settings disk readers) hstep

end Histories

end LightHeaders
