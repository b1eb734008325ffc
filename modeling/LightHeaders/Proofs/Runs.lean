import LightHeaders.Proofs.Changes

set_option autoImplicit false

/-! # Work as a row of changes

`Build.Runs P m ws Q` says what work does when it starts in a sound workspace: it makes changes of
the class `P` and no others, whether it succeeds or fails, and where it succeeds its result and the
workspace it leaves meet `Q`.

There is one rule for each way to put work together. The rule for `>>=` hands the second part a
workspace that is sound and reached by such changes.
-/

namespace LightHeaders

namespace Build

variable {α β : Type} {P P' : Change.Class} {ws : Workspace}

/-- From `ws`, if it is sound, `m` makes only changes of the class `P`, and a result meets `Q`. -/
def Runs (P : Change.Class) (m : Build α) (ws : Workspace) (Q : α → Workspace → Prop) : Prop :=
  ws.Sound →
    match m ws with
    | .ok a ws' => Reach P ws ws' ∧ Q a ws'
    | .error _ ws' => Reach P ws ws'

/-- Work of which no more is said than what it changes. -/
abbrev Makes (P : Change.Class) (m : Build α) (ws : Workspace) : Prop :=
  Runs P m ws fun _ _ => True

/-! ## Reading a run off -/

variable {id : ComponentId} {kind : Kind} {b : Prop} {name : String} {ws' : Workspace}

theorem Runs.of_ok {m : Build α} {Q : α → Workspace → Prop} (h : Runs P m ws Q) (hs : ws.Sound) {a : α}
    (hm : m ws = .ok a ws') : Reach P ws ws' ∧ Q a ws' := by
  have h := h hs
  rwa [hm] at h

/-- The workspace that work leaves, whether it succeeds or fails. -/
def after (m : Build α) (ws : Workspace) : Workspace :=
  match m ws with
  | .ok _ ws' => ws'
  | .error _ ws' => ws'

/-- Whether work succeeds. -/
def succeeds (m : Build α) (ws : Workspace) : Bool :=
  match m ws with
  | .ok _ _ => true
  | .error _ _ => false

theorem ok_of_succeeds {m : Build α} (h : m.succeeds ws = true) :
    ∃ a, m ws = .ok a (m.after ws) := by
  rw [succeeds] at h
  rw [after]
  cases hm : m ws with
  | ok a ws' => exact ⟨a, rfl⟩
  | error e ws' =>
    rw [hm] at h
    cases h

theorem Runs.reach_after {m : Build α} {Q : α → Workspace → Prop} (h : Runs P m ws Q)
    (hs : ws.Sound) : Reach P ws (m.after ws) := by
  have h := h hs
  unfold after
  split
  · next hm =>
    rw [hm] at h
    exact h.1
  · next hm =>
    rw [hm] at h
    exact h

theorem bind_of_ok {m : Build α} {k : α → Build β} {a : α}
    (h : m ws = .ok a ws') : (m >>= k) ws = k a ws' := by
  show EStateM.bind m k ws = k a ws'
  rw [EStateM.bind, h]

theorem after_discard {m : Build α} {a : α} (h : m ws = .ok a ws') :
    (Functor.discard m).after ws = ws' := by
  have hrun : Functor.discard m ws = .ok () ws' := bind_of_ok (k := fun _ => Pure.pure ()) h
  rw [after, hrun]

theorem bind_get {k : Workspace → Build β} : (MonadState.get >>= k) ws = k ws ws := rfl

theorem bind_component {k : Component → Build β} :
    (Build.component id >>= k) ws = k (ws.component id) ws := rfl

variable {failure : Fault → Failure} {m : Build Unit}

theorem ask_of_ok {query : Disk → Except Fault α} {a : α} (h : query ws.disk = .ok a) :
    ask query failure ws = .ok a ws := by
  rw [ask, bind_get, h]
  rfl

theorem ask_of_error {query : Disk → Except Fault α} {fault : Fault} (h : query ws.disk = .error fault) :
    ask query failure ws = .error (failure fault) ws := by
  rw [ask, bind_get, h]
  rfl

theorem bind_of_error {m : Build α} {k : α → Build β} {e : Failure}
    (h : m ws = .error e ws') : (m >>= k) ws = .error e ws' := by
  show EStateM.bind m k ws = .error e ws'
  rw [EStateM.bind, h]

/-- Work in two parts that succeeds has a first part that does. -/
theorem exists_of_bind_eq_ok {m : Build α} {k : α → Build β} {b : β}
    (h : (m >>= k) ws = .ok b ws') : ∃ a ws₁, m ws = .ok a ws₁ ∧ k a ws₁ = .ok b ws' := by
  cases hm : m ws with
  | ok a ws₁ =>
    rw [bind_of_ok hm] at h
    exact ⟨a, ws₁, rfl, h⟩
  | error e ws₁ =>
    rw [bind_of_error hm] at h
    cases h

/-! ## Weakening -/

theorem Runs.weaken {m : Build α} {Q Q' : α → Workspace → Prop} (h : Runs P m ws Q)
    (hQ : ∀ a ws', ws'.Sound → Reach P ws ws' → Q a ws' → Q' a ws') : Runs P m ws Q' := by
  intro hs
  have h := h hs
  cases hm : m ws with
  | ok a ws' =>
    rw [hm] at h
    exact ⟨h.1, hQ a ws' (h.1.sound hs) h.1 h.2⟩
  | error e ws' =>
    rw [hm] at h
    exact h

theorem Runs.makes {m : Build α} {Q : α → Workspace → Prop} (h : Runs P m ws Q) :
    Makes P m ws :=
  h.weaken fun _ _ _ _ _ => trivial

theorem Runs.mono {m : Build α} {Q : α → Workspace → Prop} (h : Runs P m ws Q)
    (hP : ∀ ws c, P ws c → P' ws c) : Runs P' m ws Q := by
  intro hs
  have h := h hs
  cases hm : m ws with
  | ok a ws' =>
    rw [hm] at h
    exact ⟨h.1.mono hP, h.2⟩
  | error e ws' =>
    rw [hm] at h
    exact h.mono hP

theorem Runs.both {m : Build α} {Q Q' : α → Workspace → Prop} (h : Runs P m ws Q)
    (h' : Runs P' m ws Q') : Runs P m ws fun a ws' => Q a ws' ∧ Q' a ws' := by
  intro hs
  have h := h hs
  have h' := h' hs
  cases hm : m ws with
  | ok a ws' =>
    rw [hm] at h h'
    exact ⟨h.1, h.2, h'.2⟩
  | error e ws' =>
    rw [hm] at h
    exact h

/-- The changes that were made can be told instead of bounded. -/
theorem Runs.told {m : Build α} {Q : α → Workspace → Prop} (h : Runs P m ws Q) :
    Runs (fun _ _ => True) m ws fun a ws' => Reach P ws ws' ∧ Q a ws' :=
  (h.weaken fun _ _ _ hreach hQ => (⟨hreach, hQ⟩ : _ ∧ _)).mono fun _ _ _ => trivial

/-- The result is the one that the work gives. -/
theorem Runs.given {m : Build α} {Q : α → Workspace → Prop} (h : Runs P m ws Q) :
    Runs P m ws fun a ws' => m ws = .ok a ws' ∧ Q a ws' := by
  intro hs
  have h := h hs
  cases hm : m ws with
  | ok a ws' =>
    rw [hm] at h
    exact ⟨h.1, rfl, h.2⟩
  | error e ws' =>
    rw [hm] at h
    exact h

theorem Runs.of_sound {m : Build α} {Q : α → Workspace → Prop} (h : ws.Sound → Runs P m ws Q) :
    Runs P m ws Q :=
  fun hs => h hs hs

/-! ## Putting work together -/

theorem Runs.pure {Q : α → Workspace → Prop} {a : α} (h : Q a ws) : Runs P (pure a) ws Q :=
  fun _ => ⟨.refl P ws, h⟩

theorem Runs.throw {Q : α → Workspace → Prop} (e : Failure) :
    Runs P (throw e : Build α) ws Q :=
  fun _ => .refl P ws

theorem Runs.bind {m : Build α} {k : α → Build β} {R : α → Workspace → Prop} {Q : β → Workspace → Prop}
    (hm : Runs P m ws R) (hk : ∀ a ws', ws'.Sound → Reach P ws ws' → R a ws' → Runs P (k a) ws' Q) :
    Runs P (m >>= k) ws Q := by
  intro hs
  have hm := hm hs
  show match EStateM.bind m k ws with
    | .ok a ws' => Reach P ws ws' ∧ Q a ws'
    | .error _ ws' => Reach P ws ws'
  rw [EStateM.bind]
  cases hrun : m ws with
  | error e ws' =>
    rw [hrun] at hm
    exact hm
  | ok a ws' =>
    rw [hrun] at hm
    obtain ⟨hreach, hR⟩ := hm
    have hk := hk a ws' (hreach.sound hs) hreach hR (hreach.sound hs)
    show match k a ws' with
      | .ok b ws'' => Reach P ws ws'' ∧ Q b ws''
      | .error _ ws'' => Reach P ws ws''
    cases hrest : k a ws' with
    | ok b ws'' =>
      rw [hrest] at hk
      exact ⟨hreach.trans hk.1, hk.2⟩
    | error e ws'' =>
      rw [hrest] at hk
      exact hreach.trans hk

theorem Runs.ite [Decidable b] {m m' : Build α} {Q : α → Workspace → Prop} (hm : b → Runs P m ws Q)
    (hm' : ¬b → Runs P m' ws Q) :
    Runs P (if b then m else m') ws Q := by
  split
  · next hb => exact hm hb
  · next hb => exact hm' hb

/-- Work that is done only where a condition holds, and what comes next in either case. -/
theorem Runs.first [Decidable b] {m : Build PUnit} {k : PUnit → Build β} {Q : β → Workspace → Prop}
    (hm : b → Makes P m ws) (hk : ∀ ws', ws'.Sound → Reach P ws ws' → Runs P (k ⟨⟩) ws' Q) :
    Runs P (if b then m >>= k else k ⟨⟩) ws Q :=
  Runs.ite (fun hb => .bind (hm hb) fun _ ws' hs' hreach _ => hk ws' hs' hreach)
    fun _ => .of_sound fun hs => hk ws hs (.refl P ws)

theorem Runs.get {k : Workspace → Build β} {Q : β → Workspace → Prop}
    (hk : ws.Sound → Runs P (k ws) ws Q) : Runs P (MonadState.get >>= k) ws Q :=
  fun hs => hk hs hs

theorem Runs.component {k : Component → Build β} {Q : β → Workspace → Prop}
    (hk : ws.Sound → Runs P (k (ws.component id)) ws Q) :
    Runs P (Build.component id >>= k) ws Q :=
  fun hs => hk hs hs

theorem Runs.instruction {k : Instruction → Build β} {Q : β → Workspace → Prop} {id : InstructionId}
    (hk : ws.Sound → Runs P (k (ws.forest.get id)) ws Q) :
    Runs P (Build.instruction id >>= k) ws Q :=
  fun hs => hk hs hs

theorem Runs.discard {m : Build α} {Q : Workspace → Prop} (h : Runs P m ws fun _ => Q) :
    Runs P (Functor.discard m) ws fun _ => Q := by
  have hm : Functor.discard m = (m >>= fun _ => Pure.pure ()) := rfl
  rw [hm]
  exact .bind h fun _ _ _ _ hQ => .pure hQ

theorem Makes.discard {m : Build α} (h : Makes P m ws) : Makes P (Functor.discard m) ws :=
  Runs.discard h

/-! ## Single changes -/

theorem Runs.change {Q : Unit → Workspace → Prop} (c : Change) (hm : m ws = .ok () (c.apply ws))
    (legal : c.Legal ws) (mem : P ws c) (h : Q () (c.apply ws)) : Runs P m ws Q := by
  intro _
  rw [hm]
  exact ⟨.single c legal mem, h⟩

theorem Makes.change (c : Change) (hm : m ws = .ok () (c.apply ws)) (legal : c.Legal ws) (mem : P ws c) :
    Makes P m ws :=
  Runs.change c hm legal mem trivial

theorem Makes.edit {g : Component → Component} (e : Edit) (legal : (Change.edit id e).Legal ws)
    (mem : P ws (.edit id e)) (hg : g = e.apply) :
    Makes P (update id g) ws := by
  subst hg
  exact Makes.change (.edit id e) rfl legal mem

theorem Makes.editFile {g : SourceFile → SourceFile} (e : FileEdit) (mem : P ws (.edit id (.file e)))
    (hg : g = e.apply) : Makes P (updateFile id g) ws := by
  subst hg
  exact Makes.change (.edit id (.file e)) rfl trivial mem

theorem Runs.addBelow {parent : ComponentId} {instruction? : Option InstructionId}
    (legal : (Change.below parent name kind instruction?).Legal ws)
    (mem : P ws (.below parent name kind instruction?)) :
    Runs P (addBelow parent name kind instruction?) ws fun id ws' =>
      id = ws.size ∧ ws' = (Change.below parent name kind instruction?).apply ws :=
  fun _ => ⟨.single (.below parent name kind instruction?) legal mem, rfl, rfl⟩

theorem Runs.addRoot (mem : P ws (.root name kind)) :
    Runs P (addRoot name kind) ws fun id ws' =>
      id = ws.size ∧ ws' = (Change.root name kind).apply ws :=
  fun _ => ⟨.single (.root name kind) trivial mem, rfl, rfl⟩

theorem Runs.ask {query : Disk → Except Fault α} :
    Runs P (ask query failure) ws fun a ws' => ws' = ws ∧ query ws.disk = .ok a := by
  refine .get fun _ => ?_
  cases hq : query ws.disk with
  | ok a => exact .pure ⟨rfl, rfl⟩
  | error fault => exact .throw _

theorem Runs.needReader {language : Language} :
    Runs P (needReader language) ws fun _ ws' => ws' = ws := by
  refine .get fun _ => ?_
  split
  · exact .throw _
  · exact .pure rfl

/-! ## Repeating work -/

/-- What work for each member of a list keeps, work for all of them keeps. -/
theorem Runs.forM {l : List α} {f : α → Build Unit} {I : Workspace → Prop} (hI : I ws)
    (h : ∀ a ∈ l, ∀ ws', ws'.Sound → Reach P ws ws' → I ws' → Runs P (f a) ws' fun _ ws'' => I ws'') :
    Runs P (l.forM f) ws fun _ ws' => I ws' := by
  induction l generalizing ws with
  | nil => exact .pure hI
  | cons a l ih =>
    show Runs P (f a >>= fun _ => l.forM f) ws fun _ ws' => I ws'
    refine .of_sound fun hs => ?_
    refine .bind (h a (.head _) ws hs (.refl P ws) hI) fun _ ws' _ hreach hI' => ?_
    exact ih hI' fun b hb ws'' hs'' hreach' =>
      h b (.tail _ hb) ws'' hs'' (hreach.trans hreach')

/-- Work for each member of a list, each from wherever the one before has led. -/
theorem Makes.forM {l : List α} {f : α → Build Unit}
    (h : ∀ a ∈ l, ∀ ws', ws'.Sound → Reach P ws ws' → Makes P (f a) ws') :
    Makes P (l.forM f) ws :=
  Runs.forM trivial fun a ha ws' hs hreach _ => h a ha ws' hs hreach

/-- What is known of the result for each member of a list is known of all results. -/
theorem Runs.mapM_all {l : List α} {f : α → Build β} {R : β → Prop}
    (h : ∀ a ∈ l, ∀ ws', ws'.Sound → Reach P ws ws' → Runs P (f a) ws' fun b _ => R b) :
    Runs P (l.mapM f) ws fun bs _ => ∀ b ∈ bs, R b := by
  induction l generalizing ws with
  | nil => exact .pure fun _ hb => (List.not_mem_nil hb).elim
  | cons a l ih =>
    rw [List.mapM_cons]
    refine .of_sound fun hs => ?_
    refine .bind (h a (.head _) ws hs (.refl P ws)) fun b ws' _ hreach hb => ?_
    refine .bind (ih fun a ha ws'' hs'' hreach' =>
      h a (.tail _ ha) ws'' hs'' (hreach.trans hreach')) fun bs _ _ _ hbs => ?_
    refine .pure fun c hc => ?_
    rcases List.mem_cons.mp hc with rfl | hc
    · exact hb
    · exact hbs c hc

/-- Where each member of a list gives what `g` says, so does the whole list. -/
theorem Runs.mapM {l : List α} {f : α → Build β} {g : α → Option β}
    (h : ∀ a ∈ l, ∀ ws', ws'.Sound → Reach P ws ws' → Runs P (f a) ws' fun b _ => g a = some b) :
    Runs P (l.mapM f) ws fun bs _ => l.mapM g = some bs := by
  induction l generalizing ws with
  | nil => exact .pure rfl
  | cons a l ih =>
    rw [List.mapM_cons, List.mapM_cons]
    refine .of_sound fun hs => ?_
    refine .bind (h a (.head _) ws hs (.refl P ws)) fun b ws' _ hreach hb => ?_
    refine .bind (ih fun a ha ws'' hs'' hreach' =>
      h a (.tail _ ha) ws'' hs'' (hreach.trans hreach')) fun bs _ _ _ hbs => ?_
    refine .pure ?_
    rw [hb, hbs]
    rfl

end Build

theorem Reach.lt {P : Change.Class} {ws ws' : Workspace} (h : Reach P ws ws') {id : ComponentId}
    (hid : id < ws.size) : id < ws'.size :=
  Nat.lt_of_lt_of_le hid h.extension.size_le

end LightHeaders
