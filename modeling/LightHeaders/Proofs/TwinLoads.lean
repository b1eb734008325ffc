import LightHeaders.Proofs.Renumbering
import LightHeaders.Proofs.PathParts

set_option autoImplicit false

/-! # One file loaded in two workspaces

A file whose source declares no dotted name is loaded without a look at any other file. So it is
loaded in step in two workspaces that have the same disk and agree on the file: either both loads
fail alike, or both make the same components, but for their numbers and those of the instructions
they are made from (`Build.inStep_load`).

What is compared of two components is their **face**: all that reading and resolving see of them.
-/

namespace LightHeaders

open Text Component Change Workspace

/-! ## Work in step -/

namespace Build

variable {α β γ δ : Type} {R : α → β → Workspace → Workspace → Prop}

/-- The result of work, or why it fails. -/
def outcome {α : Type} (m : Build α) (ws : Workspace) : Except Failure α :=
  match m ws with
  | .ok a _ => .ok a
  | .error e _ => .error e

theorem ok_of_outcome {ws : Workspace} {m : Build α} {a : α} (h : m.outcome ws = .ok a) :
    m ws = .ok a (m.after ws) := by
  unfold outcome at h
  unfold after
  split at h
  · next hm =>
    cases h
    rw [hm]
  · cases h

theorem error_of_outcome {ws : Workspace} {m : Build α} {e : Failure} (h : m.outcome ws = .error e) :
    m ws = .error e (m.after ws) := by
  unfold outcome at h
  unfold after
  split at h
  · cases h
  · next hm =>
    cases h
    rw [hm]

/-- Two pieces of work succeed, with results and workspaces that meet `R`, or fail alike. -/
def InStep (R : α → β → Workspace → Workspace → Prop) :
    EStateM.Result Failure Workspace α → EStateM.Result Failure Workspace β → Prop
  | .ok a ws, .ok b ws' => R a b ws ws'
  | .error e _, .error e' _ => e = e'
  | _, _ => False

theorem InStep.mono {R' : α → β → Workspace → Workspace → Prop}
    (hR : ∀ a b ws ws', R a b ws ws' → R' a b ws ws') {r : EStateM.Result Failure Workspace α}
    {r' : EStateM.Result Failure Workspace β} (h : InStep R r r') : InStep R' r r' := by
  cases r with
  | ok a ws =>
    cases r' with
    | ok b ws' => exact hR a b ws ws' h
    | error e' ws' => exact h
  | error e ws =>
    cases r' with
    | ok | error => exact h

variable {ws ws' : Workspace}

theorem InStep.bind {S : γ → δ → Workspace → Workspace → Prop} {m : Build α} {m' : Build β} {k : α → Build γ}
    {k' : β → Build δ} (h : InStep R (m ws) (m' ws'))
    (hk : ∀ a b s s', R a b s s' → InStep S (k a s) (k' b s')) :
    InStep S ((m >>= k) ws) ((m' >>= k') ws') := by
  cases hm : m ws with
  | ok a s =>
    cases hm' : m' ws' with
    | ok b s' =>
      rw [hm, hm'] at h
      rw [bind_of_ok hm, bind_of_ok hm']
      exact hk a b s s' h
    | error e' s' =>
      rw [hm, hm'] at h
      exact h.elim
  | error e s =>
    cases hm' : m' ws' with
    | ok b s' =>
      rw [hm, hm'] at h
      exact h.elim
    | error e' s' =>
      rw [hm, hm'] at h
      rw [bind_of_error hm, bind_of_error hm']
      exact h

theorem InStep.component {k : Component → Build α} {k' : Component → Build β} {id id' : ComponentId}
    (h : InStep R (k (ws.component id) ws) (k' (ws'.component id') ws')) :
    InStep R ((Build.component id >>= k) ws) ((Build.component id' >>= k') ws') :=
  h

theorem InStep.ite {c : Prop} [Decidable c] {m n : Build α} {m' n' : Build β}
    (hm : c → InStep R (m ws) (m' ws')) (hn : ¬c → InStep R (n ws) (n' ws')) :
    InStep R ((if c then m else n) ws) ((if c then m' else n') ws') := by
  split
  · exact hm ‹c›
  · exact hn ‹¬c›

end Build

/-! ## Faces -/

/-- What reading and resolving see of a component. -/
structure Face where
  name : String
  /-- The word for its kind. -/
  sort : String
  parent? : Option ComponentId
  child? : String → Option ComponentId
  /-- How many children there are. -/
  count : Nat
  source? : Option InstructionId

/-- The face of a component. -/
def Component.face (c : Component) : Face :=
  { name := c.name, sort := c.kind.describe, parent? := c.parent?, child? := c.child?,
    count := c.childIds.length, source? := c.instruction? }

variable {c c' : Component}

theorem Component.face_of_still (h : c'.still = c.still) : c'.face = c.face := by
  have hstill : ∀ c : Component, c.still.face = c.face := by
    intro c
    simp only [still, face]
    cases c.kind <;> rfl
  rw [← hstill c', h, hstill]

theorem Component.exists_file_of_pending? (h : c.pending?.isSome = true) :
    ∃ file, c.file? = some file ∧ file.loaded = false := by
  rw [isSome_pending?] at h
  cases hfile : c.file? with
  | none =>
    rw [hfile] at h
    cases h
  | some file =>
    rw [hfile] at h
    exact ⟨file, rfl, by simpa using h⟩

theorem Component.file?_of_still (h : c'.still = c.still) :
    c'.file?.map SourceFile.still = c.file?.map SourceFile.still := by
  have hkind : c'.kind.still = c.kind.still := congrArg kind h
  have hfile := congrArg Kind.file? hkind
  rwa [Kind.file?_still, Kind.file?_still] at hfile

namespace Face

/-- The face with one more child. -/
def addChild (name : String) (id : ComponentId) (x : Face) : Face :=
  { x with
    child? := fun other => if other = name then some id else x.child? other
    count := if (x.child? name).isSome then x.count else x.count + 1 }

/-- The face with other numbers for components and instructions. -/
def rename (component : ComponentId → ComponentId) (instruction : InstructionId → InstructionId)
    (x : Face) : Face :=
  { x with
    parent? := x.parent?.map component
    child? := fun name => (x.child? name).map component
    source? := x.source?.map instruction }

theorem rename_addChild (component : ComponentId → ComponentId) (instruction : InstructionId → InstructionId)
    (name : String) (id : ComponentId) (x : Face) :
    (x.addChild name id).rename component instruction =
      (x.rename component instruction).addChild name (component id) := by
  simp only [addChild, rename, mk.injEq, true_and, and_true, Option.isSome_map]
  funext other
  split <;> rfl

/-- The face that a component of `ws'` has if its copy in `ws` has the face `x`. -/
def carry (ws ws' : Workspace) : Face → Face :=
  rename (renumber ws.size ws'.size) (renumber ws.forest.size ws'.forest.size)

end Face

/-- Only `source` changes a face. -/
theorem Edit.apply_face (e : Edit) (h : ∀ i, e ≠ .source i) (c : Component) :
    (e.apply c).face = c.face := by
  cases e with
  | source i => exact absurd rfl (h i)
  | param id =>
    rw [Edit.apply]
    split
    · next s hk => simp only [face, hk]; rfl
    · rfl
  | resolved target? =>
    rw [Edit.apply]
    split
    · next o hk => simp only [face, hk]; rfl
    · rfl
  | file g =>
    simp only [Edit.apply, face]
    cases c.kind <;> rfl
  | _ => rfl

theorem Component.face_addChild (c : Component) (name : String) (id : ComponentId) :
    (c.addChild name id).face = c.face.addChild name id := by
  have hchild : (c.addChild name id).child? =
      fun other => if other = name then some id else c.child? other := by
    funext other
    split
    · next h => rw [h, child?_addChild_self]
    · next h => exact child?_addChild_of_ne c h id
  have hcount : (c.addChild name id).childIds.length =
      if (c.child? name).isSome then c.childIds.length else c.childIds.length + 1 := by
    rw [addChild]
    dsimp only
    cases c.child? name with
    | none | some => simp
  rw [face, hchild, hcount]
  rfl

/-! ## While a file is loaded -/

namespace Workspace

/-- The component was made from an instruction that is new since `ws`, below `g` or below something
that is new as well. -/
structure NewBelow (ws : Workspace) (g : ComponentId) (c : Component) : Prop where
  noFile : c.kind.isFile = false
  parent : ∃ p, c.parent? = some p ∧ (p = g ∨ ws.size ≤ p)
  source : ∃ i, c.instruction? = some i ∧ ws.forest.size ≤ i

/-- What is known of `s` while `g` is being loaded, from `ws` on: nothing but `g` and what is new has
been touched. -/
structure Loading (ws : Workspace) (g : ComponentId) (s : Workspace) : Prop where
  size_le : ws.size ≤ s.size
  others : ∀ {x}, x < ws.size → x ≠ g → s.component x = ws.component x
  marked : (s.component g).pending? = none
  child : ∀ name, (s.component g).child? name = (ws.component g).child? name ∨
    ∃ y, ws.size ≤ y ∧ (s.component g).child? name = some y
  new : ∀ {x}, ws.size ≤ x → x < s.size → ws.NewBelow g (s.component x)
  root : ws.size < s.size → (s.component g).instruction? = some ws.forest.size
  disk : s.disk = ws.disk
  readers : s.readers = ws.readers

namespace Loading

variable {ws s : Workspace} {g x : ComponentId}

theorem start (ws : Workspace) (g : ComponentId) :
    ws.Loading g ((edit g (.file .loaded)).apply ws) where
  size_le := le_of_eq (size_modify ws g _).symm
  others _ hne := by rw [apply, component_modify_eq, if_neg fun h => hne h.1]
  marked := by rw [pending?_marked, if_pos rfl]
  child name := .inl (modify_keeps ws g (child? · name)
    (fun c => Edit.apply_child? _ c name) g)
  new hle hlt := absurd hlt (Nat.not_lt.mpr (by rw [apply, size_modify]; exact hle))
  root hlt := absurd hlt (Nat.not_lt.mpr (le_of_eq (size_modify ws g _)))
  disk := rfl
  readers := rfl

/-- What is not in the components makes no difference. -/
theorem of_components (h : ws.Loading g s) {s' : Workspace} (hc : s'.components = s.components)
    (hdisk : s'.disk = s.disk) (hreaders : s'.readers = s.readers) : ws.Loading g s' := by
  have hcomponent : s'.component = s.component := by
    funext id
    rw [component, component, hc]
  have hsize : s'.size = s.size := by rw [size, size, hc]
  obtain ⟨size_le, others, marked, child, new, root, disk, readers⟩ := h
  rw [← hcomponent] at others marked child new root
  rw [← hsize] at size_le new root
  exact ⟨size_le, others, marked, child, new, root, hdisk.trans disk, hreaders.trans readers⟩

theorem pending?_apply (e : Edit) {c : Component} (h : c.pending? = none) :
    (e.apply c).pending? = none := by
  rw [pending?] at h ⊢
  rcases e.apply_file? c with heq | ⟨f, -, heq⟩
  · rw [heq, h]
  · rw [heq]
    cases hfile : c.file? with
    | none => rfl
    | some file =>
      rw [hfile] at h
      have hloaded : file.loaded = true := by
        by_contra hno
        simp [hno] at h
      simp [(f.loaded_apply file).mpr (.inl hloaded)]

theorem edit (h : ws.Loading g s) (hx : x = g ∨ ws.size ≤ x) (e : Edit)
    (hsource : ∀ i, e = .source i → x < ws.size ∧ i = ws.forest.size) :
    ws.Loading g ((edit x e).apply s) := by
  have hsize : ((Change.edit x e).apply s).size = s.size := size_modify s x _
  refine ⟨hsize ▸ h.size_le, ?_, ?_, ?_, ?_, ?_, h.disk, h.readers⟩
  · intro y hy hne
    rw [← h.others hy hne, apply, component_modify_eq, if_neg]
    rintro ⟨rfl, -⟩
    exact hx.elim hne fun hle => absurd hy (Nat.not_lt.mpr hle)
  · rw [apply, component_modify_eq]
    split
    · exact pending?_apply e h.marked
    · exact h.marked
  · intro name
    have hkept := modify_keeps s x (child? · name) (fun c => e.apply_child? c name) g
    exact hkept ▸ h.child name
  · intro y hle hlt
    have hnew := h.new hle (hsize ▸ hlt)
    rw [apply, component_modify_eq]
    split
    · next heq =>
      refine ⟨by rw [e.apply_isFile]; exact hnew.noFile, by rw [e.apply_parent?]; exact hnew.parent, ?_⟩
      -- a new component keeps the instruction it was made from
      rcases e.apply_instruction? (s.component y) with hsame | ⟨i, rfl, -⟩
      · rw [hsame]
        exact hnew.source
      · exact absurd (heq.1 ▸ hle) (Nat.not_le.mpr (hsource i rfl).1)
    · exact hnew
  · intro hlt
    have hroot := h.root (hsize ▸ hlt)
    rw [apply, component_modify_eq]
    split
    · rcases e.apply_instruction? (s.component g) with hsame | ⟨i, rfl, hset⟩
      · rw [hsame, hroot]
      · rw [hset, (hsource i rfl).2]
    · exact hroot

theorem below (h : ws.Loading g s) (hg : g < ws.size) {p : ComponentId} (hp : p = g ∨ ws.size ≤ p)
    (hlt : p < s.size) (hroot : (s.component g).instruction? = some ws.forest.size) (name : String)
    {kind : Kind} (hkind : kind.isFile = false) {i : InstructionId} (hi : ws.forest.size ≤ i) :
    ws.Loading g ((below p name kind (some i)).apply s) := by
  have hcomponent := component_below hlt name kind (some i)
  have hgs : g ≠ s.size := ne_of_lt (lt_of_lt_of_le hg h.size_le)
  refine ⟨?_, ?_, ?_, ?_, ?_, fun _ => ?_, h.disk, h.readers⟩
  · rw [size_below]
    exact Nat.le_succ_of_le h.size_le
  · intro y hy hne
    have hp' : y ≠ p := fun heq => hp.elim (heq ▸ hne) fun hle => absurd (heq ▸ hy) (Nat.not_lt.mpr hle)
    rw [hcomponent, if_neg (ne_of_lt (lt_of_lt_of_le hy h.size_le)), if_neg hp', h.others hy hne]
  · rw [hcomponent, if_neg hgs]
    split
    · next heq => rw [← heq]; exact h.marked
    · exact h.marked
  · intro other
    rw [hcomponent, if_neg hgs]
    split
    · next heq =>
      by_cases hname : other = name
      · rw [hname, child?_addChild_self]
        exact .inr ⟨s.size, h.size_le, rfl⟩
      · rw [child?_addChild_of_ne _ hname, ← heq]
        exact h.child other
    · exact h.child other
  · intro y hle hy
    rw [size_below] at hy
    rw [hcomponent]
    split
    · exact ⟨hkind, ⟨p, rfl, hp⟩, ⟨i, rfl, hi⟩⟩
    · next hne =>
      split
      · next heq =>
        obtain ⟨noFile, parent, source⟩ := h.new (heq ▸ hle) hlt
        exact ⟨noFile, parent, source⟩
      · exact h.new hle (Nat.lt_of_le_of_ne (Nat.le_of_lt_succ hy) hne)
  · rw [hcomponent, if_neg hgs]
    split
    · next heq => rw [← heq]; exact hroot
    · exact hroot

end Loading

/-! ## While a file is loaded in two workspaces -/

/-- `g` is being loaded, from `ws` on and from `ws'` on, and what has been made is the same but for
the numbers. -/
structure Copying (ws ws' : Workspace) (g : ComponentId) (s s' : Workspace) : Prop where
  there : g < ws.size
  le : ws.size ≤ ws'.size
  size : ∃ k, s.size = ws.size + k ∧ s'.size = ws'.size + k
  face : ∀ x, x = g ∨ ws.size ≤ x → x < s.size →
    (s'.component (renumber ws.size ws'.size x)).face = (s.component x).face.carry ws ws'

namespace Copying

variable {ws ws' s s' : Workspace} {g x : ComponentId}

theorem size_le (h : ws.Copying ws' g s s') : ws.size ≤ s.size := by
  obtain ⟨k, hs, -⟩ := h.size
  omega

theorem size_eq (h : ws.Copying ws' g s s') : s'.size = renumber ws.size ws'.size s.size := by
  obtain ⟨k, hs, hs'⟩ := h.size
  rw [renumber_of_le h.size_le]
  omega

theorem lt (h : ws.Copying ws' g s s') {x : Nat} (hlt : x < s.size) :
    renumber ws.size ws'.size x < s'.size := by
  obtain ⟨k, hs, hs'⟩ := h.size
  have hle := h.le
  rw [renumber]
  split <;> omega

/-- What changes no face makes no difference. -/
theorem of_faces (h : ws.Copying ws' g s s') {u u' : Workspace} (hsize : u.size = s.size)
    (hface : ∀ x, (u.component x).face = (s.component x).face) (hsize' : u'.size = s'.size)
    (hface' : ∀ x, (u'.component x).face = (s'.component x).face) : ws.Copying ws' g u u' where
  there := h.there
  le := h.le
  size := by
    rw [hsize, hsize']
    exact h.size
  face y hy hlt := by
    rw [hface, hface']
    exact h.face y hy (hsize ▸ hlt)

theorem edit (h : ws.Copying ws' g s s') (x x' : ComponentId) {e d : Edit} (he : ∀ i, e ≠ .source i)
    (hd : ∀ i, d ≠ .source i) : ws.Copying ws' g ((edit x e).apply s) ((Change.edit x' d).apply s') :=
  h.of_faces (size_modify s x _) (modify_keeps s x Component.face (e.apply_face he)) (size_modify s' x' _)
    (modify_keeps s' x' Component.face (d.apply_face hd))

theorem source (h : ws.Copying ws' g s s') :
    ws.Copying ws' g ((Change.edit g (.source ws.forest.size)).apply s)
      ((Change.edit g (.source ws'.forest.size)).apply s') where
  there := h.there
  le := h.le
  size := by
    simp only [apply, size_modify]
    exact h.size
  face y hy hlt := by
    rw [apply, size_modify] at hlt
    have hface := h.face y hy hlt
    have hself : renumber ws.size ws'.size y = g ↔ y = g := by
      rw [← renumber_of_lt (n := ws'.size) h.there]
      exact (renumber_injective h.le).eq_iff.trans (by rw [renumber_of_lt h.there])
    have hg : g < s.size := lt_of_lt_of_le h.there h.size_le
    have hg' : g < s'.size := renumber_of_lt (n := ws'.size) h.there ▸ h.lt hg
    simp only [apply, component_modify_eq, hself, hg, hg', and_true]
    split
    · have hedit : ∀ (c : Component) (i : InstructionId),
          (Edit.apply (.source i) c).face = { c.face with source? := some i } := fun _ _ => rfl
      rw [hedit, hedit, hface, Face.carry, Face.rename, Face.rename]
      simp only [Option.map_some, renumber_self]
    · exact hface

/-- **A component is made in both**, below one and the same. -/
theorem below (h : ws.Copying ws' g s s') {p : ComponentId} (hp : p = g ∨ ws.size ≤ p) (hlt : p < s.size)
    (name : String) {kind kind' : Kind} (hsort : kind'.describe = kind.describe) (i : InstructionId) :
    ws.Copying ws' g ((below p name kind (some i)).apply s)
      ((below (renumber ws.size ws'.size p) name kind'
        (some (renumber ws.forest.size ws'.forest.size i))).apply s') where
  there := h.there
  le := h.le
  size := by
    obtain ⟨k, hs, hs'⟩ := h.size
    exact ⟨k + 1, by rw [size_below]; omega, by rw [size_below]; omega⟩
  face y hy hy' := by
    rw [size_below] at hy'
    have hinj : ∀ a b, renumber ws.size ws'.size a = renumber ws.size ws'.size b ↔ a = b :=
      fun a b => (renumber_injective h.le).eq_iff
    rw [component_below (h.lt hlt), component_below hlt, h.size_eq]
    simp only [hinj]
    split
    · simp only [Component.face, hsort]
      rfl
    · next hne =>
      have hold : y < s.size := Nat.lt_of_le_of_ne (Nat.le_of_lt_succ hy') hne
      split
      · next heq =>
        subst heq
        rw [face_addChild, face_addChild, Face.carry, Face.rename_addChild,
          h.face y hy hold]
        rfl
      · exact h.face y hy hold

end Copying

end Workspace

/-! ## Reading in step -/

/-- The kinds are of one sort. -/
inductive Kind.SameSort : Kind → Kind → Prop
  | space : SameSort .space .space
  | classType : SameSort .classType .classType
  | structType : SameSort .structType .structType
  | file {f f' : SourceFile} : SameSort (.file f) (.file f')
  | function {s s' : Signature} : SameSort (.function s) (.function s')
  | member {m m' : Member} : SameSort (.member m) (.member m')
  | operation {o o' : Operation} : SameSort (.operation o) (.operation o')

/-- The word for a kind tells its sort. -/
theorem Kind.sameSort {k k' : Kind} (h : k'.describe = k.describe) : SameSort k k' := by
  cases k <;> cases k' <;> first | constructor | exact absurd h (by simp [describe])

/-- Whether the instruction declares something by its name. -/
def Instruction.declares (i : Instruction) : Bool :=
  ["namespace", "class", "struct", "function", "declare", "param"].contains i.op

/-- What the instruction declares, it declares where it stands. -/
def Instruction.Undotted (i : Instruction) : Prop := i.declares = true → '.' ∉ i.name.toList

instance (i : Instruction) : Decidable i.Undotted := inferInstanceAs (Decidable (_ → _))

namespace Build

variable {load load' : ComponentId → Build Unit} {ws ws' s s' : Workspace} {g id : ComponentId}

variable {i : Instruction}

/-- A name without a dot is resolved by nobody. -/
theorem declare_eq {source : InstructionId} (hi : '.' ∉ i.name.toList) (kind : Kind) :
    declare load id source i kind s = .ok s.size
      ((edit s.size (.settings i.attributes)).apply
        ((below id i.name kind (some source)).apply s)) := by
  have hbase : baseWith load id i.name = pure (id, i.name) := by
    rw [baseWith, cutLast?_of_not_mem hi]
  rw [declare, addComponentWith, hbase]
  rfl

theorem addOperation_eq (source : InstructionId) (i : Instruction) (action : Action) :
    addOperation id source i action s = .ok ()
      ((edit s.size (.settings i.attributes)).apply
        ((below id (i.op ++ "#" ++ toString (s.component id).childIds.length)
          (.operation { action }) (some source)).apply s)) := rfl

/-- At most the receiver of the text of `nested` is set. -/
theorem lift_eq (s : Workspace) (id nested : ComponentId) : ∃ u, lift id nested s = .ok () u ∧
    (u = s ∨ ∃ file, u = (edit nested (.forward file)).apply s) := by
  rw [lift, bind_get]
  cases s.fileOf? id with
  | none => exact ⟨s, rfl, .inl rfl⟩
  | some file => exact ⟨_, rfl, .inr ⟨file, rfl⟩⟩

/-- What work in step leaves: the workspaces are still copies, and nothing is gone. -/
abbrev Kept (ws ws' : Workspace) (g : ComponentId) (s u u' : Workspace) : Prop :=
  ws.Copying ws' g u u' ∧ s.size ≤ u.size

theorem Kept.trans {t u u' : Workspace} (h : Kept ws ws' g t u u') (hle : s.size ≤ t.size) :
    Kept ws ws' g s u u' :=
  ⟨h.1, le_trans hle h.2⟩

section

variable (h : ws.Copying ws' g s s') (hid : id = g ∨ ws.size ≤ id) (hlt : id < s.size)

include h hid hlt

variable {i : Instruction} {kind kind' : Kind} (source : InstructionId)

theorem kept_grow (name : String) (hsort : kind'.describe = kind.describe) (more : List (String × String)) :
    Kept ws ws' g ((below id name kind (some source)).apply s)
      ((edit s.size (.settings more)).apply ((below id name kind (some source)).apply s))
      ((edit s'.size (.settings more)).apply
        ((below (renumber ws.size ws'.size id) name kind'
          (some (renumber ws.forest.size ws'.forest.size source))).apply s')) :=
  ⟨(h.below hid hlt name hsort source).edit _ _ (by rintro _ ⟨⟩) (by rintro _ ⟨⟩),
    le_of_eq (size_modify _ _ _).symm⟩

/-- A component is declared in step. It has the next number. -/
theorem inStep_declare (hdot : '.' ∉ i.name.toList) (hsort : kind'.describe = kind.describe) :
    InStep (fun c c' u u' => c = s.size ∧ c' = s'.size ∧ s.size < u.size ∧ ws.Copying ws' g u u')
      (declare load id source i kind s)
      (declare load' (renumber ws.size ws'.size id) (renumber ws.forest.size ws'.forest.size source)
        (i.renumber ws.forest.size ws'.forest.size) kind' s') := by
  obtain ⟨hcopying, hsize⟩ := kept_grow h hid hlt source i.name hsort i.attributes
  rw [declare_eq hdot, declare_eq (i := i.renumber _ _) hdot]
  rw [size_below] at hsize
  exact ⟨rfl, rfl, hsize, hcopying⟩

theorem inStep_declareMember (hdot : '.' ∉ i.name.toList) (isParam : Bool) :
    InStep (fun c c' u u' => c = s.size ∧ c' = s'.size ∧ s.size < u.size ∧ ws.Copying ws' g u u')
      (declareMember load id source i isParam s)
      (declareMember load' (renumber ws.size ws'.size id)
        (renumber ws.forest.size ws'.forest.size source)
        (i.renumber ws.forest.size ws'.forest.size) isParam s') := by
  rw [declareMember, declareMember, show (i.renumber _ _).type? = i.type? from rfl]
  cases i.type? with
  | none => exact rfl
  | some type => exact inStep_declare h hid hlt source hdot rfl

theorem inStep_discard_declareMember (hdot : '.' ∉ i.name.toList) :
    InStep (fun _ _ => Kept ws ws' g s) ((discard (declareMember load id source i false) : Build Unit) s)
      ((discard (declareMember load' (renumber ws.size ws'.size id)
        (renumber ws.forest.size ws'.forest.size source)
        (i.renumber ws.forest.size ws'.forest.size) false) : Build Unit) s') := by
  show InStep _ ((declareMember load id source i false >>= fun _ => pure ()) s)
    ((declareMember load' _ _ _ false >>= fun _ => pure ()) s')
  refine (inStep_declareMember h hid hlt source hdot false).bind ?_
  rintro _ _ u u' ⟨-, -, hsize, hcopying⟩
  exact ⟨hcopying, le_of_lt hsize⟩

theorem inStep_declareParam (hdot : '.' ∉ i.name.toList) :
    InStep (fun _ _ => Kept ws ws' g s) (declareParam load id source i s)
      (declareParam load' (renumber ws.size ws'.size id)
        (renumber ws.forest.size ws'.forest.size source)
        (i.renumber ws.forest.size ws'.forest.size) s') := by
  refine (inStep_declareMember h hid hlt source hdot true).bind ?_
  rintro param param' u u' ⟨-, -, hsize, hcopying⟩
  show InStep _ (.ok () ((edit id (.param param)).apply u))
    (.ok () ((edit (renumber ws.size ws'.size id) (.param param')).apply u'))
  refine ⟨hcopying.edit _ _ (by rintro _ ⟨⟩) (by rintro _ ⟨⟩), ?_⟩
  rw [apply, size_modify]
  exact le_of_lt hsize

theorem inStep_addOperation (i : Instruction) (action : Action) :
    InStep (fun _ _ => Kept ws ws' g s) (addOperation id source i action s)
      (addOperation (renumber ws.size ws'.size id) (renumber ws.forest.size ws'.forest.size source)
        (i.renumber ws.forest.size ws'.forest.size) action s') := by
  have hcount : (s'.component (renumber ws.size ws'.size id)).childIds.length =
      (s.component id).childIds.length := congrArg Face.count (h.face id hid hlt)
  rw [addOperation_eq, addOperation_eq, hcount]
  refine (kept_grow h hid hlt source _ rfl i.attributes).trans ?_
  rw [size_below]
  exact Nat.le_succ s.size

theorem inStep_refuse {α : Type} {R : α → α → Workspace → Workspace → Prop} (op : String) :
    InStep R (refuse id op s) (refuse (renumber ws.size ws'.size id) op s') := by
  have hface := h.face id hid hlt
  have hsort : (s'.component (renumber ws.size ws'.size id)).kind.describe =
      (s.component id).kind.describe := congrArg Face.sort hface
  have hname : (s'.component (renumber ws.size ws'.size id)).name = (s.component id).name :=
    congrArg Face.name hface
  show Failure.notPermitted op (s.component id).kind.describe (s.component id).name =
    Failure.notPermitted op _ _
  rw [hsort, hname]

end

theorem inStep_lift (h : ws.Copying ws' g s s') (id id' nested nested' : ComponentId) :
    InStep (fun _ _ => Kept ws ws' g s) (lift id nested s) (lift id' nested' s') := by
  have hfaces : ∀ (s : Workspace) (id nested : ComponentId), ∃ u, lift id nested s = .ok () u ∧
      u.size = s.size ∧ ∀ x, (u.component x).face = (s.component x).face := by
    intro s id nested
    obtain ⟨u, hu, rfl | ⟨file, rfl⟩⟩ := lift_eq s id nested
    · exact ⟨u, hu, rfl, fun _ => rfl⟩
    · exact ⟨_, hu, size_modify .., modify_keeps s nested Component.face
        (Edit.apply_face (.forward file) (by rintro _ ⟨⟩))⟩
  obtain ⟨u, hu, hsize, hface⟩ := hfaces s id nested
  obtain ⟨u', hu', hsize', hface'⟩ := hfaces s' id' nested'
  rw [hu, hu']
  exact ⟨h.of_faces hsize hface hsize' hface', le_of_eq hsize.symm⟩

theorem declares_of_containerKind? {kind : Kind} (h : containerKind? i = some kind) : i.declares = true := by
  rw [containerKind?] at h
  rw [Instruction.declares]
  split at h <;> simp_all

mutual

/-- One step of reading: an instruction and those below it make the same components. -/
theorem inStep_readTree : ∀ (t : InstructionTree) {s s' : Workspace} {id : ComponentId},
    ws.Copying ws' g s s' → id = g ∨ ws.size ≤ id → id < s.size → (∀ node ∈ t.nodes, node.2.Undotted) →
    InStep (fun _ _ => Kept ws ws' g s) (readTree load id t s)
      (readTree load' (renumber ws.size ws'.size id)
        (t.renumber ws.forest.size ws'.forest.size) s')
  | .node source i body, s, s', id, h, hid, hlt, hnodes => by
    have hundotted := hnodes (source, i) (.head _)
    have hmember : i.op = "declare" → '.' ∉ i.name.toList := fun hop =>
      hundotted (by rw [Instruction.declares, hop]; rfl)
    -- a component with a body: its own instruction, then those of the body
    have hbody : ∀ (kind : Kind), '.' ∉ i.name.toList → ∀ (rest rest' : ComponentId → Build Unit),
        (∀ u u', Kept ws ws' g s u u' →
          InStep (fun _ _ => Kept ws ws' g u) (rest s.size u) (rest' s'.size u')) →
        InStep (fun _ _ => Kept ws ws' g s)
          ((do
            let child ← declare load id source i kind
            readTrees load child body
            rest child) s)
          ((do
            let child ← declare load' (renumber ws.size ws'.size id)
              (renumber ws.forest.size ws'.forest.size source)
              (i.renumber ws.forest.size ws'.forest.size) kind
            readTrees load' child
              (InstructionTree.renumberAll ws.forest.size ws'.forest.size body)
            rest' child) s') := by
      intro kind hdot rest rest' hrest
      refine (inStep_declare h hid hlt source hdot rfl).bind ?_
      rintro _ _ u u' ⟨rfl, rfl, hsize, hcopying⟩
      have hread := inStep_readTrees body hcopying (.inr h.size_le) hsize
        fun node hnode => hnodes node (.tail _ hnode)
      rw [← h.size_eq] at hread
      refine hread.bind fun _ _ v v' hkept => ?_
      have hkept := hkept.trans (le_of_lt hsize)
      exact (hrest v v' hkept).mono fun _ _ _ _ hlast => hlast.trans hkept.2
    have hsort : (s'.component (renumber ws.size ws'.size id)).kind.describe =
        (s.component id).kind.describe := congrArg Face.sort (h.face id hid hlt)
    rw [InstructionTree.renumber, readTree, readTree]
    refine InStep.component ?_
    generalize (s'.component (renumber ws.size ws'.size id)).kind = kind' at hsort ⊢
    generalize (s.component id).kind = kind at hsort ⊢
    cases Kind.sameSort hsort with
    | file | space | classType =>
      dsimp only
      rw [show containerKind? (i.renumber ws.forest.size ws'.forest.size) = containerKind? i from rfl]
      cases hkind : containerKind? i with
      | some kind =>
        have hread := hbody kind (hundotted (declares_of_containerKind? hkind)) (fun _ => pure ())
          (fun _ => pure ()) fun u u' hkept => ⟨hkept.1, le_rfl⟩
        simpa using hread
      | none =>
        exact InStep.ite (fun hop => inStep_discard_declareMember h hid hlt source (hmember hop))
          fun _ => inStep_refuse h hid hlt i.op
    | structType =>
      exact InStep.ite (fun hop => inStep_discard_declareMember h hid hlt source (hmember hop))
        fun _ => inStep_refuse h hid hlt i.op
    | function =>
      dsimp only
      rw [show action? (i.renumber ws.forest.size ws'.forest.size) = action? i from rfl]
      cases action? i with
      | some action => exact inStep_addOperation h hid hlt source i action
      | none =>
        refine InStep.ite (fun hop => inStep_declareParam h hid hlt source
          (hundotted (by rw [Instruction.declares, hop]; rfl))) fun _ => ?_
        refine InStep.ite (fun hop => inStep_discard_declareMember h hid hlt source (hmember hop))
          fun _ => ?_
        refine InStep.ite (fun hop => ?_) fun _ => inStep_refuse h hid hlt i.op
        exact hbody _ (hundotted (by rw [Instruction.declares, hop]; rfl)) (lift id)
          (lift (renumber ws.size ws'.size id)) fun u u' hkept => inStep_lift hkept.1 ..
    | member | operation => exact inStep_refuse h hid hlt i.op

/-- **Trees are read in step.** -/
theorem inStep_readTrees : ∀ (ts : List InstructionTree) {s s' : Workspace} {id : ComponentId},
    ws.Copying ws' g s s' → id = g ∨ ws.size ≤ id → id < s.size →
    (∀ node ∈ InstructionTree.nodesAll ts, node.2.Undotted) →
    InStep (fun _ _ => Kept ws ws' g s) (readTrees load id ts s)
      (readTrees load' (renumber ws.size ws'.size id)
        (InstructionTree.renumberAll ws.forest.size ws'.forest.size ts) s')
  | [], s, s', id, h, _, _, _ => ⟨h, le_rfl⟩
  | t :: ts, s, s', id, h, hid, hlt, hnodes => by
    have hfirst := inStep_readTree t h hid hlt fun node hnode =>
      hnodes node (List.mem_append_left _ hnode)
    refine hfirst.bind fun _ _ u u' hkept => ?_
    have hrest := inStep_readTrees ts hkept.1 hid (lt_of_lt_of_le hlt hkept.2)
      fun node hnode => hnodes node (List.mem_append_right _ hnode)
    exact hrest.mono fun _ _ _ _ hlast => hlast.trans hkept.2

end

end Build

/-! ## Loading in step -/

namespace Workspace

/-- The source of a file that is still to be read, with its language. -/
def pendingSource? (ws : Workspace) (g : ComponentId) : Option (Language × String) := do
  let path ← (ws.component g).pending?
  let language ← Language.ofPath? path
  let source ← (ws.disk.readText path).toOption
  return (language, source)

/-- No source that is still to be read declares a dotted name. -/
def Undotted (ws : Workspace) : Prop :=
  ∀ g < ws.size, ∀ entry ∈ ws.pendingSource? g,
    ∀ i ∈ (entry.1.read entry.2 {}).1.nodes.toList, i.Undotted

instance : DecidablePred Undotted := fun ws => inferInstanceAs (Decidable
  (∀ g < ws.size, ∀ entry ∈ ws.pendingSource? g,
    ∀ i ∈ (entry.1.read entry.2 {}).1.nodes.toList, i.Undotted))

/-- `ws'` has been reached from `ws` with nothing done to `g`. -/
structure Spares (ws : Workspace) (g : ComponentId) (ws' : Workspace) : Prop where
  there : g < ws.size
  le : ws.size ≤ ws'.size
  still : (ws'.component g).still = (ws.component g).still
  disk : ws'.disk = ws.disk
  readers : ws'.readers = ws.readers

/-- A component that was there does not mention what comes later. -/
theorem Sound.carry_face {ws : Workspace} (hs : ws.Sound) (ws' : Workspace) {g : ComponentId}
    (hg : g < ws.size) : (ws.component g).face.carry ws ws' = (ws.component g).face := by
  have hmap : ∀ {m n : Nat} {o : Option Nat}, (∀ k, o = some k → k < m) →
      o.map (renumber m n) = o := by
    rintro m n (_ | k) hlt
    · rfl
    · rw [Option.map_some, renumber_of_lt (hlt k rfl)]
  have hparent := hmap (n := ws'.size) fun p hp => lt_trans (hs.parent_lt hp) hg
  have hsource := hmap (n := ws'.forest.size)
    fun i (hi : (ws.component g).instruction? = some i) => hs.instruction_lt hi
  have hchild : (fun name => ((ws.component g).child? name).map (renumber ws.size ws'.size)) =
      (ws.component g).child? := by
    funext name
    exact hmap fun c hc => (hs.child hc).1
  simp only [Face.carry, Face.rename, face, hparent, hsource, hchild]

end Workspace

namespace Build

variable {load load' : ComponentId → Build Unit} {ws ws' s s' : Workspace} {g : ComponentId}

theorem mem_nodesAll_body {f : Forest} (hf : f.Sound) {root : InstructionId}
    {node : InstructionId × Instruction} (h : node ∈ InstructionTree.nodesAll (f.body root)) :
    root ≤ node.1 ∧ node.2 = f.get node.1 := by
  have hmem : node ∈ (f.tree root).nodes := by
    rw [nodes_tree]
    exact .tail _ h
  obtain ⟨hunder, hget⟩ := Forest.mem_nodes_treeWithin hmem
  exact ⟨hunder.le hf, hget⟩

/-- What a source that may be read is read into, in any forest, has no dotted name. -/
theorem undotted_read {language : Language} {source : String}
    (h : ∀ i ∈ (language.read source {}).1.nodes.toList, i.Undotted) (f : Forest) {id : InstructionId}
    (hid : f.size ≤ id) : ((language.read source f).1.get id).Undotted := by
  obtain ⟨hcopied, -⟩ := language.copied_read source {} f
  have hget := hcopied.get (id - f.size) (Nat.zero_le _)
  have hback : renumber (Forest.size {}) f.size (id - f.size) = id := by
    show (if id - f.size < 0 then _ else f.size + (id - f.size - 0)) = id
    rw [if_neg (Nat.not_lt_zero _)]
    exact Nat.add_sub_of_le hid
  rw [hback] at hget
  rw [hget]
  show ((language.read source {}).1.get (id - f.size)).Undotted
  rw [Forest.get, Array.getD_eq_getD_getElem?]
  cases hnode : (language.read source {}).1.nodes[id - f.size]? with
  | none => exact fun hdeclares => by cases hdeclares
  | some i => exact h i (Array.mem_toList_iff.mpr (Array.mem_of_getElem? hnode))

theorem inStep_needReader (h : s'.readers = s.readers) (language : Language) :
    InStep (fun _ _ u u' => s = u ∧ s' = u') (needReader language s) (needReader language s') := by
  show InStep _ ((if !s.readers.contains language then throw (.noReader language) else pure () :
      Build Unit) s)
    ((if !s'.readers.contains language then throw (.noReader language) else pure () :
      Build Unit) s')
  rw [h]
  exact InStep.ite (fun _ => rfl) fun _ => ⟨rfl, rfl⟩

theorem inStep_ask {α : Type} (h : s'.disk = s.disk) (query : Disk → Except Fault α)
    (failure : Fault → Failure) :
    InStep (fun a b u u' => query s.disk = .ok a ∧ a = b ∧ s = u ∧ s' = u') (ask query failure s)
      (ask query failure s') := by
  cases hquery : query s.disk with
  | ok a =>
    rw [ask_of_ok hquery, ask_of_ok (h ▸ hquery)]
    exact ⟨rfl, rfl, rfl, rfl⟩
  | error fault =>
    rw [ask_of_error hquery, ask_of_error (h ▸ hquery)]
    exact rfl

theorem inStep_addSource? (language : Language) (source : String) :
    InStep (fun root? root?' u u' => root? = (language.read source s.forest).2 ∧
        root?' = root?.map (renumber s.forest.size s'.forest.size) ∧
        u = { s with forest := (language.read source s.forest).1 } ∧
        u' = { s' with forest := (language.read source s'.forest).1 })
      (addSource? language source s) (addSource? language source s') := by
  rw [addSource?_eq_read, addSource?_eq_read]
  exact ⟨rfl, (language.copied_read source s.forest s'.forest).2, rfl, rfl⟩

theorem copying_marked (h : ws.Spares g ws') (hs : ws.Sound) :
    ws.Copying ws' g ((edit g (.file .loaded)).apply ws)
      ((edit g (.file .loaded)).apply ws') where
  there := h.there
  le := h.le
  size := ⟨0, size_modify ws g _, size_modify ws' g _⟩
  face x hx hlt := by
    rw [apply, size_modify] at hlt
    obtain rfl := hx.resolve_right (Nat.not_le.mpr hlt)
    have hface : (ws'.component x).face = (ws.component x).face :=
      face_of_still h.still
    have hmark := Edit.apply_face (.file .loaded) (by rintro _ ⟨⟩)
    rw [renumber_of_lt h.there, apply, apply,
      modify_keeps ws' x face hmark,
      modify_keeps ws x face hmark, hface, hs.carry_face ws' h.there]

/-- **A source is read in step.** -/
theorem inStep_readSource (hs : ws.Sound) (hs' : ws'.Sound) (h : ws.Copying ws' g s s')
    (hforest : s.forest = ws.forest) (hforest' : s'.forest = ws'.forest) (hdisk : s'.disk = s.disk)
    (hreaders : s'.readers = s.readers) {path : Path}
    (hundotted : ∀ language source, Language.ofPath? path = some language →
      s.disk.readText path = .ok source →
      ∀ i ∈ (language.read source {}).1.nodes.toList, i.Undotted) :
    InStep (fun _ _ u u' => ws.Copying ws' g u u') (readSource load g path s)
      (readSource load' g path s') := by
  rw [readSource, readSource]
  cases hlanguage : Language.ofPath? path with
  | none => exact rfl
  | some language =>
    refine (inStep_needReader hreaders language).bind ?_
    rintro _ _ _ _ ⟨rfl, rfl⟩
    refine InStep.bind (R := fun _ _ u u' =>
      u = { s with journal := s.journal ++ [.opened g] } ∧
      u' = { s' with journal := s'.journal ++ [.opened g] }) ⟨rfl, rfl⟩ ?_
    rintro _ _ t t' ⟨ht, ht'⟩
    have hopened : t'.disk = t.disk := by
      rw [ht, ht']
      exact hdisk
    refine (inStep_ask hopened (·.readText path) (.unusable path)).bind ?_
    rintro source _ _ _ ⟨hsource, rfl, rfl, rfl⟩
    subst ht ht'
    refine (inStep_addSource? language source).bind ?_
    rintro root? _ u u' ⟨hroot, rfl, hu, hu'⟩
    dsimp only at hroot hu hu' ⊢
    rw [hforest] at hroot hu ⊢
    rw [hforest'] at hu' ⊢
    obtain ⟨hgrown, hfirst⟩ := language.read_spec source ws.forest
    obtain ⟨hgrown', -⟩ := language.read_spec source ws'.forest
    cases root? with
    | none => exact rfl
    | some root =>
      obtain ⟨rfl, -⟩ := hfirst root hroot.symm
      have hcopying : ws.Copying ws' g u u' := by
        subst hu hu'
        exact h.of_faces rfl (fun _ => rfl) rfl fun _ => rfl
      have hready := hcopying.source.edit g g
        (e := .file (.language language)) (d := .file (.language language)) (by rintro _ ⟨⟩)
        (by rintro _ ⟨⟩)
      have hbody := (language.copied_read source ws.forest ws'.forest).1.body_eq
        (hgrown.sound hs.forest) (hgrown'.sound hs'.forest)
      have hread : InStep _ (readTrees load g _ _) (readTrees load' _ _ _) :=
        inStep_readTrees ((language.read source ws.forest).1.body ws.forest.size) hready
          (.inl rfl) (lt_of_lt_of_le h.there hready.size_le) fun node hnode => by
            obtain ⟨hle, hget⟩ := mem_nodesAll_body (hgrown.sound hs.forest) hnode
            exact hget ▸ undotted_read (hundotted language source hlanguage hsource) ws.forest hle
      rw [← hbody, renumber_of_lt h.there] at hread
      subst hu hu'
      rw [Option.map_some, renumber_self]
      exact hread.mono fun _ _ _ _ hkept => hkept.1

theorem loadWith_of_file? {file : SourceFile} (hfile : (ws.component g).file? = some file)
    (hloaded : file.loaded = false) : loadWith load g ws =
      (if file.isDirectory then pure () else readSource load g file.path : Build Unit)
        ((edit g (.file .loaded)).apply ws) := by
  rw [loadWith, bind_component, hfile]
  dsimp only
  rw [hloaded]
  rfl

theorem load_of_pending?_eq_none (h : (ws.component g).pending? = none) : Build.load g ws = .ok () ws := by
  show loadWithin ws.unloaded g ws = _
  rw [loadWithin_eq]
  exact loadWith_of_marked (by rw [h]; rfl)

/-- **A file is loaded in step** in two workspaces that agree on it, if its source declares no dotted
name. -/
theorem inStep_load (h : ws.Spares g ws') (hs : ws.Sound) (hs' : ws'.Sound) (hundotted : ws.Undotted)
    (hpending : (ws.component g).pending?.isSome = true) :
    InStep (fun _ _ u u' => ws.Copying ws' g u u') (Build.load g ws) (Build.load g ws') := by
  have hload : ∀ ws : Workspace, Build.load g ws = loadWith _ g ws := fun ws =>
    congrFun (loadWithin_eq ws.unloaded g) ws
  obtain ⟨file, hfile, hloaded⟩ := exists_file_of_pending? hpending
  obtain ⟨file', hfile', hstill⟩ : ∃ file', (ws'.component g).file? = some file' ∧
      file'.still = file.still := by
    have hmap := file?_of_still h.still
    rw [hfile, Option.map_some] at hmap
    exact Option.map_eq_some_iff.mp hmap
  injection hstill with hpath hdirectory hsame
  rw [hload, hload, loadWith_of_file? hfile hloaded, loadWith_of_file? hfile' (hsame.trans hloaded),
    hpath, hdirectory]
  have hmarked := copying_marked h hs
  refine InStep.ite (fun _ => hmarked) fun _ => ?_
  refine inStep_readSource hs hs' hmarked rfl rfl h.disk h.readers fun language source hl hr => ?_
  refine hundotted g h.there (language, source) ?_
  rw [Option.mem_def, pendingSource?, pending?, hfile]
  simp [hloaded, hl, show ws.disk.readText file.path = .ok source from hr, Except.toOption]

end Build

end LightHeaders
