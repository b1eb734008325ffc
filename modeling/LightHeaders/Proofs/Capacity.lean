import LightHeaders.Proofs.SourceSize
import Mathlib.Algebra.Order.BigOperators.Group.Finset

set_option autoImplicit false

/-! # Room for components

How many components there can be once every file is loaded (`Workspace.capacity`) is a potential:
what is to be read of the disk pays for the components made of it. `Workspace.Costs k ws ws'` says
that getting from `ws` to `ws'` costs at most `k`, in components that nothing has paid for. To mark a
file as loaded pays for all that its source can make (`Costs.loaded`).

`Build.Agrees k m m' ws` says that two pieces of work do the same from `ws`, at that cost. There is
one rule for each way to put work together. It is for work whose recursion is cut off: at a cost that
leaves room, the bound makes no difference.
-/

namespace LightHeaders

open Component

/-! ## Sources that are to be read -/

/-- The path of the source of a component that is still to be read. -/
def Component.pending? (c : Component) : Option Path :=
  c.file?.bind fun f => if f.loaded then none else some f.path

theorem Component.pending?_eq_none {c : Component} (h : c.kind.isFile = false) :
    c.pending? = none := by
  rw [Kind.isFile, Option.isSome_eq_false_iff, Option.isNone_iff_eq_none] at h
  rw [pending?, file?, h]
  rfl

theorem Component.isSome_pending? (c : Component) :
    c.pending?.isSome = c.file?.any (!·.loaded) := by
  rw [pending?]
  cases c.file? with
  | none => rfl
  | some f =>
    rw [Option.bind_some, Option.any_some]
    cases f.loaded <;> rfl

namespace Workspace

variable (ws : Workspace)

/-- How many components a source can make at most. -/
def room (path? : Option Path) : Nat :=
  match path?.map ws.disk.readText with
  | some (.ok source) => source.length + 1
  | _ => 0

theorem growth_eq (c : Component) : ws.growth c = ws.room c.pending? := by
  rw [growth, room, pending?]
  cases c.file? with
  | none => rfl
  | some f =>
    dsimp only [Option.bind_some]
    cases f.loaded with
    | true => rfl
    | false =>
      simp only [Bool.false_eq_true, if_false, Option.map_some]
      cases ws.disk.readText f.path <;> rfl

theorem toList_components : ws.components.toList = (List.range ws.size).map ws.component := by
  refine List.ext_getElem (by simp [size]) fun i hi _ => ?_
  rw [Array.length_toList] at hi
  simp [component, hi]

theorem capacity_eq :
    ws.capacity = ws.size + ∑ id ∈ Finset.range ws.size, ws.room (ws.component id).pending? := by
  rw [capacity, toList_components, List.foldr_map]
  simp only [← growth_eq]
  exact congrArg (ws.size + ·) (List.foldr_map (f := fun id => ws.growth (ws.component id))
    (g := fun m n => m + n) (l := List.range ws.size)).symm

theorem countP_components (p : Component → Bool) : ws.components.toList.countP p =
    ((Finset.range ws.size).filter fun id => p (ws.component id) = true).card := by
  rw [toList_components, List.countP_map]
  simp [Finset.card, Multiset.range, List.countP_eq_length_filter, Function.comp_def]

/-- A file that is marked as loaded is not to be read any more, and all else is as before. -/
theorem pending?_marked (id other : ComponentId) :
    (((Change.edit id (.file .loaded)).apply ws).component other).pending? =
      if other = id then none else (ws.component other).pending? := by
  rw [Change.apply, component_modify_eq]
  by_cases hother : other = id
  · subst hother
    rw [if_pos rfl]
    by_cases hlt : other < ws.size
    · rw [if_pos ⟨rfl, hlt⟩]
      simp [pending?, file?, Edit.apply, FileEdit.apply]
    · rw [if_neg fun hboth => hlt hboth.2, ws.component_of_size_le (Nat.le_of_not_lt hlt)]
      rfl
  · rw [if_neg fun hboth => hother hboth.1, if_neg hother]

variable {ws} {ws' : Workspace}

variable {p : Component → Bool}

theorem mem_counted (hdefault : p default = false) {id : ComponentId} (hp : p (ws.component id) = true) :
    id ∈ (Finset.range ws.size).filter fun id => p (ws.component id) = true := by
  refine Finset.mem_filter.mpr ⟨Finset.mem_range.mpr (Nat.lt_of_not_le fun hle => ?_), hp⟩
  rw [ws.component_of_size_le hle, hdefault] at hp
  cases hp

theorem countP_components_le (hdefault : p default = false)
    (h : ∀ id, p (ws'.component id) = true → p (ws.component id) = true) :
    ws'.components.toList.countP p ≤ ws.components.toList.countP p := by
  rw [countP_components, countP_components]
  exact Finset.card_le_card fun id hid => mem_counted hdefault (h id (Finset.mem_filter.mp hid).2)

theorem countP_components_lt (hdefault : p default = false)
    (h : ∀ id, p (ws'.component id) = true → p (ws.component id) = true) {id : ComponentId}
    (hold : p (ws.component id) = true) (hnew : p (ws'.component id) = false) :
    ws'.components.toList.countP p < ws.components.toList.countP p := by
  rw [countP_components, countP_components]
  refine Finset.card_lt_card (Finset.ssubset_iff_of_subset ?_ |>.mpr ⟨id, mem_counted hdefault hold, ?_⟩)
  · exact fun id hid => mem_counted hdefault (h id (Finset.mem_filter.mp hid).2)
  · rw [Finset.mem_filter, hnew]
    exact fun hboth => Bool.false_ne_true hboth.2

theorem unloaded_eq (ws : Workspace) :
    ws.unloaded = ws.components.toList.countP fun c => c.pending?.isSome := by
  simp only [unloaded, isSome_pending?]

/-! ## Costs -/

/-- From `ws` to `ws'` the disk stays, nothing comes to be read that was not, and at most `k` components
are made that nothing has paid for. -/
structure Costs (k : Nat) (ws ws' : Workspace) : Prop where
  disk : ws'.disk = ws.disk
  forest : ws.forest.Sound → ws'.forest.Sound
  pending : ∀ id, (ws'.component id).pending?.isSome = true →
    (ws.component id).pending?.isSome = true
  capacity : ws'.capacity ≤ ws.capacity + k

namespace Costs

variable {a b : Nat} {ws'' : Workspace}

theorem refl (ws : Workspace) : ws.Costs 0 ws := ⟨rfl, id, fun _ => id, le_rfl⟩

theorem trans (h : ws.Costs a ws') (h' : ws'.Costs b ws'') : ws.Costs (a + b) ws'' where
  disk := h'.disk.trans h.disk
  forest hf := h'.forest (h.forest hf)
  pending id hid := h.pending id (h'.pending id hid)
  capacity := by
    have hfirst := h.capacity
    have hthen := h'.capacity
    omega

theorem mono (h : ws.Costs a ws') (hab : a ≤ b) : ws.Costs b ws' :=
  ⟨h.disk, h.forest, h.pending, le_trans h.capacity (Nat.add_le_add_left hab _)⟩

theorem unloaded_le (h : ws.Costs a ws') : ws'.unloaded ≤ ws.unloaded := by
  rw [unloaded_eq, unloaded_eq]
  exact countP_components_le rfl h.pending

theorem room_eq (hdisk : ws'.disk = ws.disk) (path? : Option Path) : ws'.room path? = ws.room path? := by
  rw [room, hdisk, room]

/-- Where the same is to be read as before, new components are all there is to pay for. -/
theorem of_pending (hdisk : ws'.disk = ws.disk) (hforest : ws.forest.Sound → ws'.forest.Sound)
    (hle : ws.size ≤ ws'.size) (hsize : ws'.size ≤ ws.size + a)
    (hpending : ∀ id, (ws'.component id).pending? = (ws.component id).pending?) :
    ws.Costs a ws' := by
  refine ⟨hdisk, hforest, fun id hid => hpending id ▸ hid, ?_⟩
  have hsum : ∑ id ∈ Finset.range ws.size, ws.room (ws.component id).pending? =
      ∑ id ∈ Finset.range ws'.size, ws'.room (ws'.component id).pending? := by
    simp only [room_eq hdisk, hpending]
    refine Finset.sum_subset (Finset.range_subset_range.mpr hle) fun id _ hid => ?_
    rw [ws.component_of_size_le (Nat.le_of_not_lt fun hlt => hid (Finset.mem_range.mpr hlt))]
    rfl
  rw [capacity_eq, capacity_eq, hsum]
  omega

/-- **A file that is marked as loaded has paid for what its source can make.** -/
theorem loaded {id : ComponentId} {path : Path} (hpath : (ws.component id).pending? = some path)
    (h : ((Change.edit id (.file .loaded)).apply ws).Costs (ws.room (some path)) ws') :
    ws.Costs 0 ws' := by
  set marked := (Change.edit id (.file .loaded)).apply ws with hmarked
  have hid : id < ws.size := Nat.lt_of_not_le fun hle => by
    rw [ws.component_of_size_le hle] at hpath
    cases hpath
  have hpending : ∀ other, (marked.component other).pending? =
      if other = id then none else (ws.component other).pending? := pending?_marked ws id
  have hsize : marked.size = ws.size := size_modify ..
  -- only the term of the marked file leaves the sum
  have hsum : marked.capacity + ws.room (some path) = ws.capacity := by
    have hrest := Finset.add_sum_erase (Finset.range ws.size)
      (fun other => ws.room (ws.component other).pending?) (Finset.mem_range.mpr hid)
    have hrest' := Finset.add_sum_erase (Finset.range ws.size)
      (fun other => marked.room (marked.component other).pending?) (Finset.mem_range.mpr hid)
    have hsame : ∑ other ∈ (Finset.range ws.size).erase id,
        marked.room (marked.component other).pending? =
          ∑ other ∈ (Finset.range ws.size).erase id, ws.room (ws.component other).pending? := by
      refine Finset.sum_congr rfl fun other hother => ?_
      rw [hpending, if_neg (Finset.ne_of_mem_erase hother)]
      rfl
    have hnone : marked.room (marked.component id).pending? = 0 := by
      rw [hpending, if_pos rfl]
      rfl
    rw [hpath] at hrest
    rw [capacity_eq, capacity_eq, hsize]
    omega
  refine ⟨h.disk, h.forest, fun other hother => ?_, ?_⟩
  · have hstill := h.pending other hother
    rw [hpending] at hstill
    split at hstill
    · cases hstill
    · exact hstill
  · have hcapacity := h.capacity
    omega

end Costs

end Workspace

/-! ## Work that does the same -/

namespace Build

variable {α β : Type} {ws : Workspace} {a b : Nat}

/-- From `ws`, `m` and `m'` do the same, and it costs at most `k`. -/
def Agrees (k : Nat) (m m' : Build α) (ws : Workspace) : Prop :=
  m ws = m' ws ∧ ws.Costs k (m.after ws)

namespace Agrees

theorem mono {m m' : Build α} (h : Agrees a m m' ws) (hab : a ≤ b) : Agrees b m m' ws :=
  ⟨h.1, h.2.mono hab⟩

protected theorem pure (x : α) : Agrees 0 (pure x : Build α) (pure x) ws := ⟨rfl, .refl ws⟩

protected theorem throw (e : Failure) : Agrees 0 (throw e : Build α) (throw e) ws := ⟨rfl, .refl ws⟩

/-- **Work after work**: the second part starts from wherever the first has led. -/
protected theorem bind {m m' : Build α} {k k' : α → Build β} (h : Agrees a m m' ws)
    (hk : ∀ x ws', m ws = .ok x ws' → ws.Costs a ws' → Agrees b (k x) (k' x) ws') :
    Agrees (a + b) (m >>= k) (m' >>= k') ws := by
  obtain ⟨hsame, hcost⟩ := h
  rw [Build.after] at hcost
  cases hm : m ws with
  | ok x ws' =>
    rw [hm] at hsame hcost
    obtain ⟨hsame', hcost'⟩ := hk x ws' hm hcost
    constructor
    · rw [bind_of_ok hm, bind_of_ok hsame.symm]
      exact hsame'
    · rw [Build.after, bind_of_ok hm]
      exact hcost.trans hcost'
  | error e ws' =>
    rw [hm] at hsame hcost
    constructor
    · rw [bind_of_error hm, bind_of_error hsame.symm]
    · rw [Build.after, bind_of_error hm]
      exact hcost.mono (Nat.le_add_right _ _)

theorem after_free {m m' : Build α} {k k' : α → Build β} (h : Agrees 0 m m' ws)
    (hk : ∀ x ws', m ws = .ok x ws' → ws.Costs 0 ws' → Agrees b (k x) (k' x) ws') :
    Agrees b (m >>= k) (m' >>= k') ws :=
  (h.bind hk).mono (le_of_eq (Nat.zero_add b))

/-- Work that is free and done only where a condition holds, and what comes next in either case. -/
theorem first {p : Prop} [Decidable p] {m m' : Build PUnit} {k k' : PUnit → Build β}
    (h : p → Agrees 0 m m' ws) (hk : ∀ ws', ws.Costs 0 ws' → Agrees b (k ⟨⟩) (k' ⟨⟩) ws') :
    Agrees b (if p then m >>= k else k ⟨⟩) (if p then m' >>= k' else k' ⟨⟩) ws := by
  by_cases hp : p
  · rw [if_pos hp, if_pos hp]
    exact (h hp).after_free fun _ ws' _ hcost => hk ws' hcost
  · rw [if_neg hp, if_neg hp]
    exact hk ws (.refl ws)

theorem then_free {m m' : Build α} {k k' : α → Build β} (h : Agrees a m m' ws)
    (hk : ∀ x ws', m ws = .ok x ws' → ws.Costs a ws' → Agrees 0 (k x) (k' x) ws') :
    Agrees a (m >>= k) (m' >>= k') ws :=
  h.bind hk

theorem get {k k' : Workspace → Build β} (h : Agrees a (k ws) (k' ws) ws) :
    Agrees a (MonadState.get >>= k) (MonadState.get >>= k') ws := h

variable {id : ComponentId}

theorem component {k k' : Component → Build β}
    (h : Agrees a (k (ws.component id)) (k' (ws.component id)) ws) :
    Agrees a (Build.component id >>= k) (Build.component id >>= k') ws := h

protected theorem discard {m m' : Build α} (h : Agrees a m m' ws) :
    Agrees a (Functor.discard m) (Functor.discard m') ws :=
  h.then_free fun _ _ _ _ => .pure ()

theorem update {g : Component → Component}
    (hg : ∀ c, (g c).pending? = c.pending?) : Agrees 0 (update id g) (update id g) ws := by
  refine ⟨rfl, .of_pending rfl (fun hf => hf) ?_ ?_ fun other => ?_⟩
  · exact le_of_eq (ws.size_modify id g).symm
  · exact le_of_eq (ws.size_modify id g)
  · exact ws.modify_keeps id pending? hg other

theorem updateFile {g : SourceFile → SourceFile} (hg : ∀ f, (g f).loaded = f.loaded ∧ (g f).path = f.path) :
    Agrees 0 (updateFile id g) (updateFile id g) ws := by
  refine update fun c => ?_
  simp only [pending?, file?, Kind.file?_mapFile]
  cases c.kind.file? with
  | none => rfl
  | some f =>
    obtain ⟨hloaded, hpath⟩ := hg f
    simp [hloaded, hpath]

/-- A file that is marked as loaded gives what follows room to make what its source says. -/
theorem loaded {path : Path} {k k' : Unit → Build β} (hpath : (ws.component id).pending? = some path)
    (h : Agrees (ws.room (some path)) (k ()) (k' ()) ((Change.edit id (.file .loaded)).apply ws)) :
    Agrees 0 (Build.updateFile id (fun f => { f with loaded := true }) >>= k)
      (Build.updateFile id (fun f => { f with loaded := true }) >>= k') ws :=
  ⟨h.1, .loaded hpath h.2⟩

theorem updateForest {g : Forest → Forest} (hg : ws.forest.Sound → (g ws.forest).Sound) :
    Agrees 0 (updateForest g) (updateForest g) ws :=
  ⟨rfl, .of_pending rfl hg le_rfl le_rfl fun _ => rfl⟩

theorem record (e : Event) : Agrees 0 (record e) (record e) ws :=
  ⟨rfl, .of_pending rfl (fun hf => hf) le_rfl le_rfl fun _ => rfl⟩

theorem addBelow {parent : ComponentId} {name : String} {kind : Kind} {instruction? : Option InstructionId}
    (hkind : kind.isFile = false) :
    Agrees 1 (addBelow parent name kind instruction?) (addBelow parent name kind instruction?) ws := by
  refine ⟨rfl, ?_⟩
  show ws.Costs 1 ((ws.add { name, kind, parent? := some parent, instruction? }).modify parent _)
  refine .of_pending rfl (fun hf => hf) ?_ ?_ fun other => ?_
  · rw [Workspace.size_modify, Workspace.size_add]
    exact Nat.le_succ _
  · rw [Workspace.size_modify, Workspace.size_add]
  · have hchild := (ws.add { name, kind, parent? := some parent, instruction? }).modify_keeps
      (g := fun c => c.addChild name ws.size) parent pending? (fun _ => rfl) other
    rw [hchild, Workspace.component_add]
    split
    · next hnew =>
      rw [hnew, ws.component_of_size_le le_rfl]
      exact pending?_eq_none hkind
    · rfl

theorem ask {k k' : α → Build β} {query : Disk → Except Fault α} {failure : Fault → Failure}
    (h : ∀ x, query ws.disk = .ok x → Agrees a (k x) (k' x) ws) :
    Agrees a (Build.ask query failure >>= k) (Build.ask query failure >>= k') ws := by
  have hfree : Agrees 0 (Build.ask query failure) (Build.ask query failure) ws := by
    refine get ?_
    cases query ws.disk with
    | ok x => exact .pure x
    | error fault => exact .throw _
  refine hfree.after_free fun x ws' hx _ => ?_
  cases hquery : query ws.disk with
  | ok y =>
    rw [ask_of_ok hquery] at hx
    cases hx
    exact h x hquery
  | error fault =>
    rw [ask_of_error hquery] at hx
    cases hx

theorem needReader (language : Language) :
    Agrees 0 (needReader language) (needReader language) ws := by
  refine get ?_
  split
  · exact .throw _
  · exact .pure ()

end Agrees

end Build

end LightHeaders
