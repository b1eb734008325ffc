import LightHeaders.Proofs.Placement

set_option autoImplicit false

/-! # Loading embeds a source

Loading a file makes just the components that its source says, or stops at the first instruction that
does not fit, with the failure of that instruction (`History.load_embeds`).

The proof goes along the trees. `Workspace.Fills` is what making the components of a body does: they are
there (`Workspace.Embodies`), the component above has them as its last children, and all others are as
they were. `Build.Answers` says how a run ends, with a failure or filled.
-/

namespace LightHeaders

open InstructionTree Change Component

/-! ## One component -/

theorem Assoc.put_of_lookup_eq_none {κ α : Type} [BEq κ] [LawfulBEq κ] {key : κ} (value : α)
    {pairs : List (κ × α)} (h : pairs.lookup key = none) : put key value pairs = pairs ++ [(key, value)] := by
  rw [List.lookup_eq_none_iff] at h
  induction pairs with
  | nil => rfl
  | cons pair rest ih =>
    obtain ⟨k, v⟩ := pair
    have hne : (k == key) = false := beq_false_of_ne (bne_iff_ne.mp (h (k, v) (.head _))).symm
    rw [put, hne, ih fun p hp => h p (.tail _ hp)]
    rfl

theorem Component.addChild_of_fresh {c : Component} {name : String} (h : c.child? name = none)
    (n : ComponentId) : c.addChild name n =
      { c with children := c.children ++ [(name, n)], childIds := c.childIds ++ [n] } := by
  rw [addChild, h, Assoc.put_of_lookup_eq_none n h]

namespace Workspace

/-- The workspace with the component of an instruction below `id`. -/
def making (s : Workspace) (id : ComponentId) (name : String) (kind : Kind) (source : InstructionId)
    (more : List (String × String)) : Workspace :=
  (edit s.size (.settings more)).apply ((below id name kind (some source)).apply s)

variable {s u v : Workspace} {f id : ComponentId} {word : String} {position : Nat}

theorem size_making (s : Workspace) (id : ComponentId) (name : String) (kind : Kind) (source : InstructionId)
    (more : List (String × String)) :
    (s.making id name kind source more).size = s.size + 1 := by
  simp [making, apply]

theorem component_making (hid : id < s.size) (name : String) (kind : Kind) (source : InstructionId)
    (more : List (String × String)) (x : ComponentId) :
    (s.making id name kind source more).component x =
      if x = s.size then
        { name, kind, parent? := some id, settings := more, instruction? := some source }
      else if x = id then (s.component id).addChild name s.size
      else s.component x := by
  by_cases hx : x = s.size
  · subst hx
    rw [making, component_edit (by rw [size_below]; exact Nat.lt_succ_self _),
      component_below hid, if_pos rfl, if_pos rfl]
    rfl
  · rw [making, component_edit_of_ne hx, component_below hid, if_neg hx, if_neg hx]

/-! ## Filling -/

/-- `u` is `s` with the components that a body says, below `id`. -/
structure Fills (f id : ComponentId) (word : String) (position : Nat) (ts : List InstructionTree)
    (s u : Workspace) : Prop where
  size : u.size = s.size + madeAll ts
  own : u.component id = (s.component id).embed position s.size ts
  others : ∀ x < s.size, x ≠ id → u.component x = s.component x
  new : u.EmbodiesAll f id word position ts s.size

theorem Fills.nil (f id : ComponentId) (word : String) (position : Nat) (s : Workspace) :
    Fills f id word position [] s s where
  size := rfl
  own := (embed_nil _ _ _).symm
  others _ _ _ := rfl
  new := by
    rw [EmbodiesAll]
    trivial

/-- A body is filled in one instruction after the other. -/
theorem Fills.cons {t : InstructionTree} {ts : List InstructionTree} (hid : id < s.size)
    (h : Fills f id word position [t] s u) (h' : Fills f id word (position + 1) ts u v) :
    Fills f id word position (t :: ts) s v := by
  have hsize : u.size = s.size + t.made := h.size
  have hle : s.size ≤ u.size := hsize ▸ Nat.le_add_right _ _
  constructor
  · rw [h'.size, hsize, madeAll, Nat.add_assoc]
  · rw [h'.own, h.own, hsize, embed_cons]
  · intro x hx hne
    rw [h'.others x (lt_of_lt_of_le hx hle) hne, h.others x hx hne]
  · have hfirst := h.new
    rw [EmbodiesAll] at hfirst ⊢
    refine ⟨hfirst.1.of_agree fun x hx hlt => h'.others x (hsize ▸ hlt) ?_, hsize ▸ h'.new⟩
    exact Nat.ne_of_gt (lt_of_lt_of_le hid hx)

variable {source : InstructionId} {i : Instruction} {body : List InstructionTree}

/-- An instruction that declares no parameter: its component is made and filled, and a function in a
function is forwarded. -/
theorem Fills.node (hid : id < s.size) (hparam : i.op ≠ "param")
    (hfresh : (s.component id).child? ((InstructionTree.node source i body).label position) = none)
    (h : Fills f s.size i.op 0 (InstructionTree.node source i body).contents
      (s.making id ((InstructionTree.node source i body).label position) i.kind source i.attributes) u)
    (hv : v = if word = "function" ∧ i.op = "function" then (edit s.size (.forward f)).apply u else u) :
    Fills f id word position [.node source i body] s v := by
  have hmade := made_eq (.node source i body)
  have hmaking := size_making s id ((InstructionTree.node source i body).label position) i.kind source
    i.attributes
  have hsize : u.size = s.size + (InstructionTree.node source i body).made := by
    rw [h.size, hmaking, hmade, Nat.add_assoc]
  have hlt : s.size < u.size := by
    rw [hsize, hmade, ← Nat.add_assoc]
    exact lt_of_lt_of_le (Nat.lt_succ_self _) (Nat.le_add_right _ _)
  -- only the new component is forwarded
  have hkept : ∀ x, x ≠ s.size → v.component x = u.component x := by
    intro x hx
    rw [hv]
    split
    · exact component_edit_of_ne hx _
    · rfl
  have hmade' : u.component s.size = embed _ _ _ _ := h.own
  rw [component_making hid, if_pos rfl, hmaking] at hmade'
  have hself : v.component s.size =
      (InstructionTree.node source i body).component f id word position s.size := by
    rw [hv, InstructionTree.component]
    split
    · rw [component_edit hlt, hmade']
      rfl
    · exact hmade'
  constructor
  · rw [hv]
    split
    · rw [apply, size_modify, hsize]
      rfl
    · exact hsize
  · have hne : id ≠ s.size := ne_of_lt hid
    rw [hkept id hne, h.others id (hmaking ▸ Nat.lt_succ_of_lt hid) hne, component_making hid,
      if_neg hne, if_pos rfl, addChild_of_fresh hfresh, embed_singleton]
    simp [InstructionTree.head, hparam]
  · intro x hx hne
    have hxs : x ≠ s.size := ne_of_lt hx
    rw [hkept x hxs, h.others x (hmaking ▸ Nat.lt_succ_of_lt hx) hxs, component_making hid, if_neg hxs,
      if_neg hne]
  · rw [EmbodiesAll, EmbodiesAll, Embodies]
    refine ⟨⟨hself, fun hopens => ?_⟩, trivial⟩
    have hinner := h.new
    rw [contents, if_pos hopens, hmaking] at hinner
    exact hinner.of_agree fun x hx _ => hkept x (Nat.ne_of_gt hx)

theorem Fills.param (hid : id < s.size) (hparam : i.op = "param") {signature : Signature}
    (hkind : (s.component id).kind = .function signature)
    (hfresh : (s.component id).child? ((InstructionTree.node source i body).label position) = none) :
    Fills f id word position [.node source i body] s
      ((edit id (.param s.size)).apply (s.making id
        ((InstructionTree.node source i body).label position) i.kind source i.attributes)) := by
  have hmaking := size_making s id ((InstructionTree.node source i body).label position) i.kind source
    i.attributes
  have hclosed : (InstructionTree.node source i body).contents = [] := by
    rw [contents, Instruction.opens, hparam]
    rfl
  have hne : id ≠ s.size := ne_of_lt hid
  constructor
  · rw [apply, size_modify, hmaking, madeAll, made_eq, hclosed]
    rfl
  · rw [component_edit (hmaking ▸ Nat.lt_succ_of_lt hid), component_making hid, if_neg hne,
      if_pos rfl, addChild_of_fresh hfresh, embed_singleton, InstructionTree.head,
      if_pos hparam]
    simp only [Edit.apply, hkind, Kind.addParams]
  · intro x hx hxid
    rw [component_edit_of_ne hxid, component_making hid, if_neg (ne_of_lt hx), if_neg hxid]
  · rw [EmbodiesAll, EmbodiesAll, Embodies, component_edit_of_ne hne.symm, component_making hid,
      if_pos rfl, InstructionTree.component, hclosed, embed_nil, if_neg]
    · refine ⟨⟨rfl, fun hopens => ?_⟩, trivial⟩
      rw [Instruction.opens, hparam] at hopens
      cases hopens
    · rintro ⟨-, hfunction⟩
      rw [hparam] at hfunction
      exact absurd hfunction (by decide)

end Workspace

namespace Build

/-! ## Reading one instruction -/

theorem containerKind?_eq (i : Instruction) :
    containerKind? i = if i.opens then some i.kind else none := by
  unfold containerKind? Instruction.opens Instruction.kind
  split <;> simp_all

theorem action?_eq (i : Instruction) : (i.op ∉ ["call", "assign", "return"] ∧ action? i = none) ∨
    ∃ action, i.op ∈ ["call", "assign", "return"] ∧ action? i = some action ∧
      i.kind = .operation { action } := by
  unfold action? Instruction.kind
  split <;> simp_all

section

variable {load : ComponentId → Build Unit} {s : Workspace} {id : ComponentId} {source : InstructionId}
  {i : Instruction} {body : List InstructionTree}

theorem refuse_eq (op : String) : (refuse id op : Build Unit) s =
    .error (.notPermitted op (s.component id).kind.describe (s.component id).name) s := rfl

theorem declareMember_of_untyped (h : i.type? = none) (isParam : Bool) :
    declareMember load id source i isParam s = .error (.untyped i.name) s := by
  unfold declareMember
  rw [h]
  rfl

theorem readTree_of_container (h : (s.component id).kind.describe ∈ ["file", "namespace", "class"]) :
    readTree load id (.node source i body) s =
      (if i.opens then do
        let child ← declare load id source i i.kind
        readTrees load child body
      else if i.op = "declare" then discard (declareMember load id source i false)
      else refuse id i.op : Build Unit) s := by
  rw [readTree, bind_component, containerKind?_eq]
  cases hk : (s.component id).kind with
  | file | space | classType => cases i.opens <;> rfl
  | _ =>
    rw [hk] at h
    simp [Kind.describe] at h

theorem readTree_of_struct (h : (s.component id).kind.describe = "struct") :
    readTree load id (.node source i body) s =
      (if i.op = "declare" then discard (declareMember load id source i false)
      else refuse id i.op : Build Unit) s := by
  rw [readTree, bind_component]
  cases hk : (s.component id).kind with
  | structType => rfl
  | _ =>
    rw [hk] at h
    simp [Kind.describe] at h

variable {signature : Signature}

theorem readTree_of_action (h : (s.component id).kind = .function signature) {action : Action}
    (haction : action? i = some action) :
    readTree load id (.node source i body) s = addOperation id source i action s := by
  rw [readTree, bind_component, h]
  simp only [haction]

theorem readTree_of_function (h : (s.component id).kind = .function signature) (haction : action? i = none) :
    readTree load id (.node source i body) s =
      (if i.op = "param" then declareParam load id source i
      else if i.op = "declare" then discard (declareMember load id source i false)
      else if i.op = "function" then do
        let nested ← declare load id source i (.function { result? := i.type? })
        readTrees load nested body
        lift id nested
      else refuse id i.op : Build Unit) s := by
  rw [readTree, bind_component, h]
  simp only [haction]

theorem lift_of_fileOf? {file nested : ComponentId} (h : s.fileOf? id = some file) :
    lift id nested s = .ok () ((edit nested (.forward file)).apply s) := by
  unfold lift
  rw [bind_get, h]
  rfl

end

/-! ## How a run ends -/

/-- The work ends with the given failure, or where there is none with `Q`. -/
def Answers (r : EStateM.Result Failure Workspace Unit) (Q : Workspace → Prop) : Option Failure → Prop
  | none => ∃ u, r = .ok () u ∧ Q u
  | some e => ∃ u, r = .error e u

variable {Q Q' : Workspace → Prop} {e? : Option Failure} {m : Build Unit} {load : ComponentId → Build Unit}
  {ws : Workspace} {f : ComponentId}

theorem Answers.mono {r : EStateM.Result Failure Workspace Unit} (h : Answers r Q e?)
    (hQ : ∀ u, r = .ok () u → Q u → Q' u) : Answers r Q' e? := by
  cases e? with
  | none =>
    obtain ⟨u, hr, hu⟩ := h
    exact ⟨u, hr, hQ u hr hu⟩
  | some e => exact h

theorem Answers.bind {k : Unit → Build Unit} {s : Workspace} {e'? : Option Failure} (h : Answers (m s) Q e?)
    (hk : ∀ u, m s = .ok () u → Q u → Answers (k () u) Q' e'?) : Answers ((m >>= k) s) Q' (e?.or e'?) := by
  cases e? with
  | none =>
    obtain ⟨u, hr, hu⟩ := h
    rw [bind_of_ok hr]
    exact hk u hr hu
  | some e =>
    obtain ⟨u, hr⟩ := h
    exact ⟨u, bind_of_error hr⟩

/-- A component of the file `f` that a body is read into, from a position on. -/
structure Site (ws : Workspace) (f : ComponentId) (s : Workspace) (id : ComponentId) (word name : String)
    (position : Nat) (ts : List InstructionTree) : Prop where
  sound : s.Sound
  within : Within ws f s id
  readable : ∀ node ∈ nodesAll ts, Readable ws s node
  file : s.fileOf? id = some f
  sort_eq : (s.component id).kind.describe = word
  name_eq : (s.component id).name = name
  /-- Only in a function the position makes a difference. -/
  count : word = "function" → (s.component id).childIds.length = position
  nodup : (labels position ts).Nodup
  /-- Only in a function there are names for positions. -/
  fresh : ∀ l ∈ labels position ts, word = "function" ∨ l ∈ declaredNames ts →
    (s.component id).child? l = none

/-- Reading a tree into a component fills it in, or stops at the first instruction that does not fit. -/
def Reads (f id : ComponentId) (word name : String) (position : Nat) (t : InstructionTree) (s : Workspace)
    (r : EStateM.Result Failure Workspace Unit) : Prop :=
  Answers r (Workspace.Fills f id word position [t] s) ((t.walk word name).findSome? Place.fault?)

/-- Reading the body of an instruction fills the component in that was made from it, or stops at the first
instruction that does not fit. -/
def ReadsBody (load : ComponentId → Build Unit) (f id : ComponentId) (source : InstructionId)
    (i : Instruction)
    (body : List InstructionTree) (s : Workspace) : Prop :=
  let made := s.making id i.name i.kind source i.attributes
  Answers (readTrees load s.size body made) (Workspace.Fills f s.size i.op 0 body made)
    ((walkAll i.op i.name body).findSome? Place.fault?)

section

variable {load : ComponentId → Build Unit} {ws s u : Workspace} {f id : ComponentId}
  {word name : String} {position : Nat} {source : InstructionId} {i : Instruction}
  {body ts : List InstructionTree} {t : InstructionTree}

theorem Site.fresh_head (h : Site ws f s id word name position (t :: ts))
    (hnamed : word = "function" ∨ t.head.declares = true) :
    (s.component id).child? (t.label position) = none := by
  refine h.fresh _ (.head _) (hnamed.imp_right fun hdeclares => ?_)
  rw [label, if_pos hdeclares]
  exact mem_declaredNames.mpr ⟨t, .head _, hdeclares, rfl⟩

theorem Site.head (h : Site ws f s id word name position (t :: ts)) : Site ws f s id word name position [t] :=
  { h with
    readable := fun node hnode => h.readable node (by
      rw [nodesAll, nodesAll, List.append_nil] at hnode
      exact List.mem_append_left _ hnode)
    nodup := List.nodup_singleton _
    fresh := fun l hl hnamed => by
      rw [labels, labels, List.mem_singleton] at hl
      refine h.fresh l (hl ▸ (.head _)) (hnamed.imp_right fun hmem => ?_)
      obtain ⟨t', ht', hdeclared⟩ := mem_declaredNames.mp hmem
      rw [List.mem_singleton.mp ht'] at hdeclared
      exact mem_declaredNames.mpr ⟨t, .head _, hdeclared⟩ }

theorem Site.readable_head (h : Site ws f s id word name position (.node source i body :: ts)) :
    Readable ws s (source, i) :=
  h.readable _ (List.mem_append_left _ (.head _))

theorem Site.tail (h : Site ws f s id word name position (t :: ts)) (hreach : Reach (Confined ws f) s u)
    (hfills : Workspace.Fills f id word position [t] s u) :
    Site ws f u id word name (position + 1) ts where
  sound := hreach.sound h.sound
  within := h.within.after hreach
  readable node hnode := (h.readable node (List.mem_append_right _ hnode)).after hreach
  file := (hreach.extension.fileOf?_eq h.sound (hreach.sound h.sound) h.within.lt).trans h.file
  sort_eq := by
    rw [hfills.own, describe_embed]
    exact h.sort_eq
  name_eq := by
    rw [hfills.own]
    exact h.name_eq
  count hword := by
    rw [hfills.own, embed_singleton]
    simp [h.count hword]
  nodup := (List.nodup_cons.mp h.nodup).2
  fresh l hl hnamed := by
    have hne : l ∉ labels position [t] := by
      rw [labels, labels, List.mem_singleton]
      exact fun heq => (List.nodup_cons.mp h.nodup).1 (heq ▸ hl)
    rw [hfills.own, child?_embed _ _ _ hne]
    refine h.fresh l (.tail _ hl) (hnamed.imp_right fun hmem => ?_)
    obtain ⟨t', ht', hdeclared⟩ := mem_declaredNames.mp hmem
    exact mem_declaredNames.mpr ⟨t', .tail _ ht', hdeclared⟩

/-- What an instruction makes is confined to the file. -/
theorem Site.reach_making (h : Site ws f s id word name position (.node source i body :: ts)) (l : String)
    (hkind : i.kind.isFile = false) :
    Reach (Confined ws f) s (s.making id l i.kind source i.attributes) :=
  reach_made h.within h.readable_head.later h.readable_head.lt l hkind i.attributes

theorem Site.inner (h : Site ws f s id word name position (.node source i body :: ts))
    (hopens : i.opens = true) (hdistinct : Distinct body) :
    Site ws f (s.making id i.name i.kind source i.attributes) s.size i.op i.name 0 body := by
  have hreach := h.reach_making i.name i.isFile_kind
  have hsound := hreach.sound h.sound
  have hcomponent : (s.making id i.name i.kind source i.attributes).component s.size = _ :=
    (Workspace.component_making h.within.lt i.name i.kind source i.attributes s.size).trans (if_pos rfl)
  exact
    { sound := hsound
      within := h.within.new hreach (by rw [Workspace.size_making]; exact Nat.lt_succ_self _)
      readable := fun node hnode =>
        (h.readable node (List.mem_append_left _ (.tail _ hnode))).after hreach
      file := by
        rw [hsound.fileOf?_eq, Workspace.isFile, Workspace.kind, hcomponent, Instruction.isFile_kind]
        exact (hreach.extension.fileOf?_eq h.sound hsound h.within.lt).trans h.file
      sort_eq := by
        rw [hcomponent]
        exact Instruction.describe_of_opens hopens
      name_eq := by rw [hcomponent]
      count := fun _ => by rw [hcomponent]; rfl
      nodup := hdistinct.nodup_labels 0
      fresh := fun l _ _ => by rw [hcomponent]; rfl }

/-! ### Instructions without a body -/

theorem answers_refuse (h : Site ws f s id word name position [.node source i body])
    (hop : i.op ∉ permitted word) {Q : Workspace → Prop} : Answers ((refuse id i.op : Build Unit) s) Q
      (((node source i body).walk word name).findSome? Place.fault?) := by
  have hfault : (⟨word, name, i⟩ : Place).fault? = some (.notPermitted i.op word name) :=
    Place.fault?_of_not_permitted hop
  rw [walk, List.findSome?_cons, hfault, refuse_eq, h.sort_eq, h.name_eq]
  exact ⟨s, rfl⟩

theorem fills_closed (h : Site ws f s id word name position [.node source i body]) (hclosed : i.opens = false)
    (hparam : i.op ≠ "param") (hnamed : word = "function" ∨ i.declares = true) :
    Workspace.Fills f id word position [.node source i body] s
      (s.making id ((node source i body).label position) i.kind source i.attributes) := by
  have hnil : Workspace.Fills f s.size i.op 0 (node source i body).contents
      (s.making id ((node source i body).label position) i.kind source i.attributes)
      (s.making id ((node source i body).label position) i.kind source i.attributes) := by
    rw [contents, hclosed]
    exact .nil _ _ _ _ _
  refine Workspace.Fills.node h.within.lt hparam (h.fresh_head hnamed) hnil (if_neg ?_).symm
  rintro ⟨-, hfunction⟩
  rw [Instruction.opens, hfunction] at hclosed
  cases hclosed

theorem declareMember_of_typed {isParam : Bool} {type : String} (hdot : '.' ∉ i.name.toList)
    (hop : i.op = if isParam then "param" else "declare") (htype : i.type? = some type) :
    declareMember load id source i isParam s =
      .ok s.size (s.making id i.name i.kind source i.attributes) := by
  have hkind : i.kind = .member { type, isParam, value? := i.children.head? } := by
    cases isParam <;> simp [Instruction.kind, hop, htype]
  unfold declareMember
  rw [htype, hkind]
  exact declare_eq hdot _

/-- A declaration without a type stops the work; from one with a type a member is made. -/
theorem answers_declareMember (isParam : Bool) (h : Site ws f s id word name position [.node source i body])
    (hop : i.op = if isParam then "param" else "declare") (hpermitted : i.op ∈ permitted word)
    {k : ComponentId → Build Unit} {v : Workspace}
    (hk : k s.size (s.making id i.name i.kind source i.attributes) = .ok () v)
    (hfills : (node source i body).label position = i.name →
      Workspace.Fills f id word position [.node source i body] s v) :
    Reads f id word name position (.node source i body) s
      ((declareMember load id source i isParam >>= k) s) := by
  have hclosed : i.opens = false := Instruction.opens_eq_false hop (by cases isParam <;> decide)
  have hdeclares : i.declares = true := by
    rw [Instruction.declares, hop]
    cases isParam <;> rfl
  rw [Reads, fault?_walk_of_closed hclosed]
  cases htype : i.type? with
  | none =>
    have hfault : (⟨word, name, i⟩ : Place).fault? = some (.untyped i.name) :=
      Place.fault?_of_untyped hpermitted (by cases isParam <;> simp [hop]) htype
    rw [hfault]
    exact ⟨s, bind_of_error (declareMember_of_untyped htype isParam)⟩
  | some type =>
    have hfits : (⟨word, name, i⟩ : Place).fault? = none :=
      (Place.fault?_eq_none_iff _).mpr ⟨hpermitted, fun _ => by rw [htype]; rfl⟩
    have hmember : declareMember load id source i isParam s = .ok s.size _ :=
      declareMember_of_typed (h.readable_head.undotted hdeclares) hop htype
    rw [hfits]
    exact ⟨v, (bind_of_ok hmember).trans hk, hfills (label_of_declares hdeclares)⟩

theorem answers_member (h : Site ws f s id word name position [.node source i body]) (hop : i.op = "declare")
    (hpermitted : i.op ∈ permitted word) :
    Reads f id word name position (.node source i body) s
      ((discard (declareMember load id source i false) : Build Unit) s) := by
  refine answers_declareMember false h hop hpermitted rfl fun hlabel => ?_
  have hdeclares : i.declares = true := by
    rw [Instruction.declares, hop]
    rfl
  have hfills := fills_closed h (Instruction.opens_eq_false hop (by decide)) (by rw [hop]; decide)
    (.inr hdeclares)
  rwa [hlabel] at hfills

variable {signature : Signature}

theorem answers_param (h : Site ws f s id "function" name position [.node source i body])
    (hop : i.op = "param") (hkind : (s.component id).kind = .function signature) :
    Reads f id "function" name position (.node source i body) s (declareParam load id source i s) := by
  refine answers_declareMember true h hop (hop ▸ by decide) rfl fun hlabel => ?_
  have hfills : Workspace.Fills f id "function" position [.node source i body] s _ :=
    .param h.within.lt hop hkind (h.fresh_head (.inl rfl))
  rwa [hlabel] at hfills

theorem answers_operation (h : Site ws f s id "function" name position [.node source i body])
    {action : Action} (hop : i.op ∈ ["call", "assign", "return"]) (hkind : i.kind = .operation { action }) :
    Reads f id "function" name position (.node source i body) s (addOperation id source i action s) := by
  obtain ⟨hparam, hbody, hdeclares, hmember, hpermitted⟩ :=
    (show ∀ op ∈ ["call", "assign", "return"], op ≠ "param" ∧
      op ∉ ["namespace", "class", "struct", "function"] ∧
      ["namespace", "class", "struct", "function", "declare", "param"].contains op = false ∧
      op ∉ ["declare", "param"] ∧ op ∈ permitted "function" by decide) i.op hop
  have hclosed := Instruction.opens_eq_false rfl hbody
  have hfits : (⟨"function", name, i⟩ : Place).fault? = none :=
    (Place.fault?_eq_none_iff _).mpr ⟨hpermitted, fun hmem => absurd hmem hmember⟩
  have hlabel : (node source i body).label position =
      i.op ++ "#" ++ toString (s.component id).childIds.length := by
    have hplain : i.declares = false := hdeclares
    rw [label, head, hplain, h.count rfl]
    rfl
  have hfills := fills_closed h hclosed hparam (.inl rfl)
  rw [hlabel, hkind] at hfills
  rw [Reads, fault?_walk_of_closed hclosed, hfits]
  exact ⟨_, addOperation_eq source i action, hfills⟩

/-! ### Bodies -/

/-- A component with a body: made, filled, and forwarded if it is a function in a function. -/
theorem answers_opened (h : Site ws f s id word name position [.node source i body]) (hopens : i.opens = true)
    (hpermitted : i.op ∈ permitted word) (rest : Build Unit) (hbody : ReadsBody load f id source i body s)
    (hrest : ∀ u, readTrees load s.size body (s.making id i.name i.kind source i.attributes) = .ok () u →
      rest u = .ok () (if word = "function" ∧ i.op = "function" then
        (edit s.size (.forward f)).apply u else u)) :
    Reads f id word name position (.node source i body) s
      ((readTrees load s.size body >>= fun _ => rest) (s.making id i.name i.kind source i.attributes)) := by
  have hlabel : (node source i body).label position = i.name :=
    label_of_declares (Instruction.declares_of_opens hopens)
  rw [Reads, fault?_walk_of_opens hopens hpermitted, ← Option.or_none (o := List.findSome? _ _)]
  refine Answers.bind hbody fun u hrun hfills => ⟨_, hrest u hrun, ?_⟩
  refine Workspace.Fills.node (u := u) h.within.lt ?_
    (h.fresh_head (.inr (Instruction.declares_of_opens hopens))) ?_ rfl
  · exact fun hparam => Instruction.not_member_of_opens hopens (by simp [hparam])
  · rw [contents, if_pos hopens, hlabel]
    exact hfills

theorem answers_struct (h : Site ws f s id "struct" name position [.node source i body]) :
    Reads f id "struct" name position (.node source i body) s (readTree load id (.node source i body) s) := by
  rw [readTree_of_struct h.sort_eq]
  split
  · next hop => exact answers_member h hop (hop ▸ by decide)
  · next hop => exact answers_refuse h fun hmem => hop (List.mem_singleton.mp hmem)

theorem answers_container (h : Site ws f s id word name position [.node source i body])
    (hword : word ∈ ["file", "namespace", "class"])
    (hbody : i.opens = true → ReadsBody load f id source i body s) :
    Reads f id word name position (.node source i body) s (readTree load id (.node source i body) s) := by
  obtain ⟨hpermitted, hplain⟩ := (show ∀ word ∈ ["file", "namespace", "class"],
    permitted word = ["namespace", "class", "struct", "function"] ++ ["declare"] ∧ word ≠ "function" by
      decide) word hword
  rw [readTree_of_container (h.sort_eq ▸ hword)]
  cases hopens : i.opens with
  | true =>
    have hdot := h.readable_head.undotted (Instruction.declares_of_opens hopens)
    have hop : i.op ∈ permitted word := by
      rw [hpermitted]
      exact List.mem_append_left _ (List.contains_iff_mem.mp hopens)
    have hopened := answers_opened h hopens hop (pure ()) (hbody hopens) fun u _ => by
      rw [if_neg fun hboth => hplain hboth.1]
      rfl
    rw [bind_pure_unit] at hopened
    rw [if_pos rfl, bind_of_ok (declare_eq hdot i.kind)]
    exact hopened
  | false =>
    rw [if_neg Bool.false_ne_true]
    split
    · next hop => exact answers_member h hop (by rw [hop, hpermitted]; decide)
    · next hop =>
      refine answers_refuse h fun hmem => ?_
      rw [hpermitted, List.mem_append, List.mem_singleton] at hmem
      rcases hmem with hmem | hmem
      · rw [Instruction.opens, List.contains_iff_mem.mpr hmem] at hopens
        cases hopens
      · exact hop hmem

theorem answers_function (h : Site ws f s id "function" name position [.node source i body])
    (hkind : (s.component id).kind = .function signature)
    (hfile : i.op = "function" → ∀ u,
      readTrees load s.size body (s.making id i.name i.kind source i.attributes) = .ok () u →
        u.fileOf? id = some f)
    (hbody : i.opens = true → ReadsBody load f id source i body s) :
    Reads f id "function" name position (.node source i body) s
      (readTree load id (.node source i body) s) := by
  rcases action?_eq i with ⟨hnone, haction⟩ | ⟨action, hop, haction, hoperation⟩
  · rw [readTree_of_function hkind haction]
    split
    · next hop => exact answers_param h hop hkind
    · next hparam =>
      split
      · next hop => exact answers_member h hop (hop ▸ by decide)
      · next hdeclare =>
        split
        · next hop =>
          have hopens : i.opens = true := by
            rw [Instruction.opens, hop]
            rfl
          have hresult : i.kind = .function { result? := i.type? } := by
            simp [Instruction.kind, hop]
          have hdot := h.readable_head.undotted (Instruction.declares_of_opens hopens)
          have hopened := answers_opened h hopens (by rw [hop]; decide) (lift id s.size)
            (hbody hopens) fun u hrun => by
              rw [if_pos ⟨rfl, hop⟩]
              exact lift_of_fileOf? (hfile hop u hrun)
          rw [← hresult, bind_of_ok (declare_eq hdot i.kind)]
          exact hopened
        · next hfunction =>
          refine answers_refuse h fun hmem => ?_
          have hmem : i.op ∈ ["param", "declare", "function"] ++ ["call", "assign", "return"] := hmem
          rcases List.mem_append.mp hmem with hmem | hmem
          · simp [hparam, hdeclare, hfunction] at hmem
          · exact hnone hmem
  · rw [readTree_of_action hkind haction]
    exact answers_operation h hop hoperation

end

mutual

/-- **One instruction**: it fills in its component with all below, or the work stops at the first one
that does not fit. -/
theorem answers_readTree :
    ∀ (t : InstructionTree) {s : Workspace} {id : ComponentId} {word name : String} {position : Nat},
      Site ws f s id word name position [t] → (∀ body ∈ t.bodies, Distinct body) →
      Reads f id word name position t s (readTree load id t s)
  | .node source i body, s, id, word, name, position, h, hdistinct => by
    have hinner : i.opens = true → Site ws f _ s.size i.op i.name 0 body := fun hopens =>
      h.inner hopens (hdistinct body (.head _))
    have hbody : i.opens = true → ReadsBody load f id source i body s := fun hopens =>
      answers_readTrees body (hinner hopens) fun b hb => hdistinct b (.tail _ hb)
    have hword := h.sort_eq
    cases hkind : (s.component id).kind <;> rw [hkind] at hword <;> subst hword
    case file file => exact answers_container h (.head _) hbody
    case space => exact answers_container h (by decide) hbody
    case classType => exact answers_container h (by decide) hbody
    case structType => exact answers_struct h
    case function signature =>
      refine answers_function h hkind (fun hop u hrun => ?_) hbody
      have hopens : i.opens = true := by
        rw [Instruction.opens, hop]
        rfl
      -- nothing that is made changes in which file the function is
      have hmade := h.reach_making i.name i.isFile_kind
      have hread := (confined_readTrees body (hinner hopens).within (hinner hopens).readable).of_ok
        (hinner hopens).sound hrun
      have hreach := hmade.trans hread.1
      exact (hreach.extension.fileOf?_eq h.sound (hreach.sound h.sound) h.within.lt).trans h.file
    case member m =>
      rw [readTree, bind_component, hkind]
      exact answers_refuse h List.not_mem_nil
    case operation o =>
      rw [readTree, bind_component, hkind]
      exact answers_refuse h List.not_mem_nil

/-- **A body**, one instruction after the other. -/
theorem answers_readTrees :
    ∀ (ts : List InstructionTree) {s : Workspace} {id : ComponentId} {word name : String} {position : Nat},
      Site ws f s id word name position ts → (∀ body ∈ bodiesAll ts, Distinct body) →
      Answers (readTrees load id ts s) (Workspace.Fills f id word position ts s)
        ((walkAll word name ts).findSome? Place.fault?)
  | [], s, id, word, name, position, _, _ => by
    rw [readTrees, walkAll]
    exact ⟨s, rfl, .nil f id word position s⟩
  | t :: ts, s, id, word, name, position, h, hdistinct => by
    rw [readTrees, walkAll, List.findSome?_append]
    refine Answers.bind (answers_readTree t h.head fun body hb =>
      hdistinct body (List.mem_append_left _ hb)) fun u hrun hfills => ?_
    have hread := (confined_readTree t h.within fun node hnode =>
      h.readable node (List.mem_append_left _ hnode)).of_ok h.sound hrun
    refine (answers_readTrees ts (h.tail hread.1 hfills) fun body hb =>
      hdistinct body (List.mem_append_right _ hb)).mono fun v _ hrest => ?_
    exact hfills.cons h.within.lt hrest

end

/-! ## Loading -/

theorem Answers.outcome (h : Answers (m ws) Q e?) :
    m.outcome ws = e?.elim (.ok ()) .error ∧ (e? = none → Q (m.after ws)) := by
  cases e? with
  | none =>
    obtain ⟨u, hr, hu⟩ := h
    rw [Build.outcome, after, hr]
    exact ⟨rfl, fun _ => hu⟩
  | some e =>
    obtain ⟨u, hr⟩ := h
    rw [Build.outcome, hr]
    exact ⟨rfl, fun hnone => by cases hnone⟩

end Build

namespace Workspace

/-- The instructions that a load of a file is about to read, with their numbers. There are none if the
file is loaded or its source cannot be read. -/
def pendingBody? (ws : Workspace) (f : ComponentId) : Option (List InstructionTree) :=
  (ws.component f).file?.bind fun file => (ws.pendingSource? f).bind fun entry =>
    if file.isDirectory = false ∧ ws.readers.contains entry.1 = true then
      (entry.1.read entry.2 ws.forest).2.map (entry.1.read entry.2 ws.forest).1.body
    else none

theorem exists_of_pendingBody? {ws : Workspace} {f : ComponentId} {body : List InstructionTree}
    (h : ws.pendingBody? f = some body) : ∃ file language source,
      (ws.component f).file? = some file ∧ file.loaded = false ∧ file.isDirectory = false ∧
      Language.ofPath? file.path = some language ∧ ws.readers.contains language = true ∧
      ws.disk.readText file.path = .ok source ∧
      (language.read source ws.forest).2 = some ws.forest.size ∧
      (language.read source ws.forest).1.body ws.forest.size = body := by
  obtain ⟨file, hfile, h⟩ := Option.bind_eq_some_iff.mp h
  obtain ⟨⟨language, source⟩, hentry, h⟩ := Option.bind_eq_some_iff.mp h
  split at h
  · next hreads =>
    obtain ⟨root, hroot, rfl⟩ := Option.map_eq_some_iff.mp h
    obtain ⟨rfl, -⟩ := (language.read_spec source ws.forest).2 root hroot
    obtain ⟨path, hpath, hentry⟩ := Option.bind_eq_some_iff.mp hentry
    obtain ⟨language', hlanguage, hentry⟩ := Option.bind_eq_some_iff.mp hentry
    obtain ⟨source', hsource, hentry⟩ := Option.bind_eq_some_iff.mp hentry
    cases hentry
    rw [pending?, hfile, Option.bind_some] at hpath
    split at hpath
    · cases hpath
    · next hloaded =>
      cases hpath
      refine ⟨file, language, source, hfile, Bool.eq_false_iff.mpr hloaded, hreads.1, hlanguage,
        hreads.2, ?_, hroot, rfl⟩
      cases hread : ws.disk.readText file.path with
      | ok text =>
        rw [hread] at hsource
        exact congrArg Except.ok (Option.some.inj hsource)
      | error fault =>
        rw [hread] at hsource
        cases hsource
  · cases h

end Workspace

namespace Build

theorem site_opening {ws : Workspace} {f : ComponentId} {file : SourceFile} (hs : ws.Sound) (hf : f < ws.size)
    (hfile : (ws.component f).file? = some file) (hloaded : file.loaded = false) {language : Language}
    {source : String} (hroot : (language.read source ws.forest).2 = some ws.forest.size)
    {body : List InstructionTree} (hbody : (language.read source ws.forest).1.body ws.forest.size = body)
    (hdistinct : ∀ b ∈ body :: bodiesAll body, Distinct b)
    (hskeleton : ∀ name ∈ declaredNames body, (ws.component f).child? name = none) :
    Site ws f (ws.opening f language source) f "file" (ws.component f).name 0 body := by
  subst hbody
  have hown := hdistinct _ (.head _)
  have hwithin := within_opening hfile hf language source
  exact
    { sound := sound_opening hs hfile hloaded hf hroot
      within := hwithin
      readable := readable_of_undotted hs hroot fun node hnode =>
        undotted_of_mem_nodesAll hown.undotted (fun b hb => hdistinct b (.tail _ hb)) hnode
      file := (sound_opening hs hfile hloaded hf hroot).fileOf?_self hwithin.file
      sort_eq := by
        rw [component_opening hf]
        simp [Edit.apply, kind_of_file? hfile, Kind.mapFile, Kind.describe]
      name_eq := by rw [component_opening hf, Edit.apply_name, Edit.apply_name, Edit.apply_name]
      count := fun hfunction => absurd hfunction (by decide)
      nodup := hown.nodup_labels 0
      fresh := fun l _ hnamed => by
        rw [component_opening hf, Edit.apply_child?, Edit.apply_child?, Edit.apply_child?]
        exact hskeleton l (hnamed.resolve_left (by decide)) }

end Build

/-- **Loading embeds a source.** Where each body of a source declares different names, none of them dotted
or with a hash, and the file has no child that is named like one, its load succeeds just if every
instruction that is read fits where it stands, and fails with the failure of the first one that does not.
If it succeeds, the file has got one child for each instruction of the body, in order, these have got
theirs in the same way, each is what its instruction says, and there is no other new component. -/
theorem History.load_embeds {A : Workspace → Call → Prop} {ws : Workspace} (h : History A ws)
    {f : ComponentId} {body : List InstructionTree} (hbody : ws.pendingBody? f = some body)
    (hdistinct : ∀ b ∈ body :: bodiesAll body, Distinct b)
    (hskeleton : ∀ name ∈ declaredNames body, (ws.component f).child? name = none) :
    let read := walkAll "file" (ws.component f).name body
    let ws' := (Build.load f).after ws
    ((Build.load f).outcome ws = .ok () ↔ ∀ p ∈ read, p.Fits) ∧
    (∀ e, (Build.load f).outcome ws = .error e ↔ read.findSome? Place.fault? = some e) ∧
    ((Build.load f).outcome ws = .ok () →
      ws'.size = ws.size + read.length ∧ ws'.EmbodiesAll f f "file" 0 body ws.size ∧
      (ws'.component f).childIds = (ws.component f).childIds ++ places ws.size body ∧
      (ws'.component f).children =
        (ws.component f).children ++ (labels 0 body).zip (places ws.size body) ∧
      ∀ id < ws.size, id ≠ f → ws'.component id = ws.component id) := by
  intro read ws'
  have hs := h.sound
  obtain ⟨file, language, source, hfile, hloaded, hdirectory, hlanguage, hreader, hsource, hroot, hread⟩ :=
    Workspace.exists_of_pendingBody? hbody
  have hf : f < ws.size := Workspace.lt_size_of_isFile (Workspace.isFile_of_file? hfile)
  obtain ⟨load, hload⟩ := Build.load_of_unloaded hfile hloaded
  have hrun : Build.load f ws = Build.readTrees load f body (ws.opening f language source) := by
    rw [hload, hdirectory, if_neg Bool.false_ne_true, ← hread]
    exact (Build.readSource_of_text load f (s := (Change.edit f (.file .loaded)).apply ws) hlanguage
      hreader hsource).2 _ hroot
  have hsite := Build.site_opening hs hf hfile hloaded hroot hread hdistinct hskeleton
  have hanswers : Build.Answers (Build.load f ws) (Workspace.Fills f f "file" 0 body _)
      (read.findSome? Place.fault?) :=
    hrun ▸ Build.answers_readTrees body hsite fun b hb => hdistinct b (.tail _ hb)
  obtain ⟨houtcome, hfills⟩ := hanswers.outcome
  have hsucceeds : (Build.load f).outcome ws = .ok () ↔ read.findSome? Place.fault? = none := by
    rw [houtcome]
    cases read.findSome? Place.fault? <;> simp
  refine ⟨?_, fun e => ?_, fun hok => ?_⟩
  · rw [hsucceeds, List.findSome?_eq_none_iff]
    exact forall₂_congr fun p _ => p.fault?_eq_none_iff
  · rw [houtcome]
    cases read.findSome? Place.fault? <;> simp
  · obtain ⟨hsize, hown, hothers, hnew⟩ := hfills (hsucceeds.mp hok)
    rw [Build.size_opening] at hsize hown hothers hnew
    rw [Build.component_opening hf] at hown
    refine ⟨?_, hnew, ?_, ?_, fun id hid hne => ?_⟩
    · rw [hsize, length_walkAll]
    · rw [hown]
      simp [Component.embed]
    · rw [hown]
      simp [Component.embed]
    · rw [hothers id hid hne]
      exact (Build.loading_opening hf language source).others hid hne

/-- Two sources: one with a function in a function and operations between parameters, and one in which
the first of two instructions that do not fit has no type. -/
theorem History.load_embeds_nested :
    let disk : Disk := ⟨[(["a.light"], .file (.text
      "namespace n\n declare v : int\nfunction g : int\n param a : int\n call v\n function k\n  return\n param b : int\n")),
      (["b.light"], .file (.text "struct s\n declare x\n function q\n"))], ⟨"/"⟩⟩
    let ws := Call.play [.registerProject "p" ⟨"/"⟩ ⟨"/o"⟩ .plain, .load 0]
      (Workspace.new {} disk [.light, .cpp])
    let ws' := (Build.load 1).after ws
    History (fun _ _ => True) ws ∧
      (∃ body, ws.pendingBody? 1 = some body ∧ (Build.load 1).outcome ws = .ok () ∧
        ws'.size = ws.size + 8 ∧ ws'.EmbodiesAll 1 1 "file" 0 body ws.size) ∧
      (Build.load 2).outcome ws = .error (.untyped "x") := by
  intro disk ws ws'
  have hhistory : History (fun _ _ => True) ws := .play (by decide +kernel)
  obtain ⟨hone, htwo, hnames, hfits, hfault⟩ :
      (ws.pendingBody? 1).isSome = true ∧ (ws.pendingBody? 2).isSome = true ∧
      (∀ f ∈ [1, 2], ∀ body ∈ ws.pendingBody? f, (∀ b ∈ body :: bodiesAll body, Distinct b) ∧
        ∀ name ∈ declaredNames body, (ws.component f).child? name = none) ∧
      (∀ body ∈ ws.pendingBody? 1, (∀ p ∈ walkAll "file" (ws.component 1).name body, p.Fits) ∧
        (walkAll "file" (ws.component 1).name body).length = 8) ∧
      ∀ body ∈ ws.pendingBody? 2, (walkAll "file" (ws.component 2).name body).findSome? Place.fault? =
        some (.untyped "x") := by decide +kernel
  obtain ⟨first, hfirst⟩ := Option.isSome_iff_exists.mp hone
  obtain ⟨second, hsecond⟩ := Option.isSome_iff_exists.mp htwo
  obtain ⟨hdistinct, hskeleton⟩ := hnames 1 (by decide) first hfirst
  obtain ⟨hdistinct', hskeleton'⟩ := hnames 2 (by decide) second hsecond
  obtain ⟨hall, hlength⟩ := hfits first hfirst
  have hfault := hfault second hsecond
  clear_value ws
  obtain ⟨hok, -, hplaced⟩ := hhistory.load_embeds hfirst hdistinct hskeleton
  obtain ⟨hsize, hembodies, -⟩ := hplaced (hok.mpr hall)
  rw [hlength] at hsize
  exact ⟨hhistory, ⟨first, hfirst, hok.mpr hall, hsize, hembodies⟩,
    ((hhistory.load_embeds hsecond hdistinct' hskeleton').2.1 _).mpr hfault⟩

end LightHeaders
