import LightHeaders.Proofs.LocalLoading

set_option autoImplicit false

/-! # Instructions in their places

What a body of instructions says about the components that are made from it, without any run.

The instructions that are read are those of the body and, behind each that opens a body of its own, those
of that body (`InstructionTree.walk`). Each stands in a component, of which the kind and the name count:
the kind says which instructions can stand there (`permitted`), and both are told in the failure of one
that cannot (`Place.fault?`).

Components are numbered in the order in which they are made, which is the order of the walk. So the body
also says which number each component gets (`InstructionTree.places`), and with it all that the component
is (`InstructionTree.component`). `Workspace.Embodies` says that a workspace has all of these components.
-/

namespace LightHeaders

open InstructionTree

/-! ## What can stand where -/

/-- Whether the instructions below an instruction are read. -/
def Instruction.opens (i : Instruction) : Bool :=
  ["namespace", "class", "struct", "function"].contains i.op

variable {i : Instruction}

theorem Instruction.opens_eq_false {op : String} (hop : i.op = op)
    (h : op ∉ ["namespace", "class", "struct", "function"]) : i.opens = false := by
  rw [opens, hop]
  simpa using h

theorem Instruction.declares_of_opens (h : i.opens = true) : i.declares = true :=
  (show ∀ op ∈ ["namespace", "class", "struct", "function"],
    ["namespace", "class", "struct", "function", "declare", "param"].contains op = true by decide) i.op
    (List.contains_iff_mem.mp h)

theorem Instruction.not_member_of_opens (h : i.opens = true) :
    i.op ∉ ["declare", "param"] :=
  (show ∀ op ∈ ["namespace", "class", "struct", "function"], op ∉ ["declare", "param"] by decide) i.op
    (List.contains_iff_mem.mp h)

/-- The instructions that can stand in a component, by the word for its kind. -/
def permitted : String → List String
  | "file" | "namespace" | "class" => ["namespace", "class", "struct", "function", "declare"]
  | "struct" => ["declare"]
  | "function" => ["param", "declare", "function", "call", "assign", "return"]
  | _ => []

/-- An instruction in a component, of which the word for its kind and the name are given. -/
structure Place where
  word : String
  name : String
  head : Instruction
deriving DecidableEq

namespace Place

/-- The instruction can stand there, and it has a type if it needs one. -/
def Fits (p : Place) : Prop :=
  p.head.op ∈ permitted p.word ∧ (p.head.op ∈ ["declare", "param"] → p.head.type?.isSome = true)

instance : DecidablePred Fits := fun p => inferInstanceAs (Decidable
  (p.head.op ∈ permitted p.word ∧ (p.head.op ∈ ["declare", "param"] → p.head.type?.isSome = true)))

/-- The failure of an instruction that does not fit. -/
def fault? (p : Place) : Option Failure :=
  if p.Fits then none
  else if p.head.op ∈ permitted p.word then some (.untyped p.head.name)
  else some (.notPermitted p.head.op p.word p.name)

theorem fault?_eq_none_iff (p : Place) : p.fault? = none ↔ p.Fits := by
  unfold fault?
  split
  · next hfits => exact ⟨fun _ => hfits, fun _ => rfl⟩
  · next hfits => split <;> simp [hfits]

variable {p : Place}

theorem fault?_of_not_permitted (h : p.head.op ∉ permitted p.word) :
    p.fault? = some (.notPermitted p.head.op p.word p.name) := by
  rw [fault?, if_neg fun hfits => h hfits.1, if_neg h]

theorem fault?_of_untyped (h : p.head.op ∈ permitted p.word) (hmember : p.head.op ∈ ["declare", "param"])
    (htype : p.head.type? = none) :
    p.fault? = some (.untyped p.head.name) := by
  refine (if_neg fun hfits => ?_).trans (if_pos h)
  have htyped := hfits.2 hmember
  rw [htype] at htyped
  cases htyped

end Place

namespace InstructionTree

/-- The instruction at the top. -/
def head : InstructionTree → Instruction
  | .node _ i _ => i

/-- What is read below it. -/
def contents : InstructionTree → List InstructionTree
  | .node _ i body => if i.opens then body else []

mutual

/-- The instructions of a tree that are read, in order, when it stands in a component of the given kind
and name. -/
def walk (word name : String) : InstructionTree → List Place
  | .node _ i body => ⟨word, name, i⟩ :: if i.opens then walkAll i.op i.name body else []

/-- The instructions of a body that are read, in order. -/
def walkAll (word name : String) : List InstructionTree → List Place
  | [] => []
  | t :: ts => t.walk word name ++ walkAll word name ts

end

/-! ## Names -/

/-- The names that the instructions of a body declare. -/
def declaredNames (ts : List InstructionTree) : List String :=
  (ts.filter (·.head.declares)).map (·.head.name)

mutual

/-- The bodies in a tree. -/
def bodies : InstructionTree → List (List InstructionTree)
  | .node _ _ body => body :: bodiesAll body

/-- The bodies in the trees of a body. -/
def bodiesAll : List InstructionTree → List (List InstructionTree)
  | [] => []
  | t :: ts => t.bodies ++ bodiesAll ts

end

/-- A body declares different names, and none that could be a path or the name of an operation. -/
def Distinct (body : List InstructionTree) : Prop :=
  (declaredNames body).Nodup ∧ ∀ name ∈ declaredNames body, '.' ∉ name.toList ∧ '#' ∉ name.toList

instance : DecidablePred Distinct := fun body => inferInstanceAs (Decidable
  ((declaredNames body).Nodup ∧ ∀ name ∈ declaredNames body, '.' ∉ name.toList ∧ '#' ∉ name.toList))

/-- The name of the component that is made from the instruction at a position of a body. -/
def label (position : Nat) (t : InstructionTree) : String :=
  if t.head.declares then t.head.name else t.head.op ++ "#" ++ toString position

/-- The names of the components that are made from a body, from a position on. -/
def labels : Nat → List InstructionTree → List String
  | _, [] => []
  | position, t :: ts => t.label position :: labels (position + 1) ts

/-! ## Numbers -/

mutual

/-- How many components are made from a tree. -/
def made : InstructionTree → Nat
  | .node _ i body => 1 + if i.opens then madeAll body else 0

/-- How many components are made from a body. -/
def madeAll : List InstructionTree → Nat
  | [] => 0
  | t :: ts => t.made + madeAll ts

end

/-- The numbers of the components that are made from a body itself, if the next number is `n`. -/
def places : ComponentId → List InstructionTree → List ComponentId
  | _, [] => []
  | n, t :: ts => n :: places (n + t.made) ts

/-- Those of the parameters. -/
def paramPlaces : ComponentId → List InstructionTree → List ComponentId
  | _, [] => []
  | n, t :: ts => (if t.head.op = "param" then [n] else []) ++ paramPlaces (n + t.made) ts

end InstructionTree

/-! ## Components -/

/-- The kind that an instruction says, of a component that has no contents yet. -/
def Instruction.kind (i : Instruction) : Kind :=
  match i.op with
  | "namespace" => .space
  | "class" => .classType
  | "struct" => .structType
  | "function" => .function { result? := i.type? }
  | "call" => .operation { action := .call i.name }
  | "assign" => .operation { action := .assign i.name }
  | "return" => .operation { action := .giveBack }
  -- a member
  | op => .member { type := i.type?.getD "", isParam := op = "param", value? := i.children.head? }

theorem Instruction.isFile_kind (i : Instruction) : i.kind.isFile = false := by
  unfold kind
  split <;> rfl

/-- The word for the kind of a component with a body is the one that opened it. -/
theorem Instruction.describe_of_opens (h : i.opens = true) : i.kind.describe = i.op := by
  unfold opens at h
  unfold kind
  split <;> simp_all [Kind.describe]

/-- A function gets more parameters. -/
def Kind.addParams (params : List ComponentId) : Kind → Kind
  | .function s => .function { s with params := s.params ++ params }
  | kind => kind

@[simp] theorem Kind.addParams_nil (kind : Kind) : kind.addParams [] = kind := by
  cases kind <;> simp [addParams]

open InstructionTree in
/-- The component with the contents that a body says, from a position on, if the next number is `n`. -/
def Component.embed (c : Component) (position : Nat) (n : ComponentId) (ts : List InstructionTree) :
    Component :=
  { c with
    kind := c.kind.addParams (paramPlaces n ts)
    children := c.children ++ (labels position ts).zip (places n ts)
    childIds := c.childIds ++ places n ts }

namespace InstructionTree

/-- The component that is made from a tree that stands in the file `f`, at a position in `parent`, of
which the word for its kind is given. A function in a function is forwarded to the file. -/
def component (f parent : ComponentId) (word : String) (position : Nat) (n : ComponentId) :
    InstructionTree → Component
  | .node source i body =>
    let own : Component :=
      { name := (node source i body).label position
        kind := i.kind
        parent? := some parent
        settings := i.attributes
        instruction? := some source
        forward? := if word = "function" ∧ i.op = "function" then some f else none }
    own.embed 0 (n + 1) (node source i body).contents

end InstructionTree

mutual

/-- The workspace has the components that a tree says, from the number `n` on. -/
def Workspace.Embodies (ws : Workspace) (f parent : ComponentId) (word : String) (position : Nat) :
    InstructionTree → ComponentId → Prop
  | .node source i body, n =>
    ws.component n = (node source i body).component f parent word position n ∧
      (i.opens = true → Workspace.EmbodiesAll ws f n i.op 0 body (n + 1))

/-- The workspace has the components that a body says, from the number `n` on. -/
def Workspace.EmbodiesAll (ws : Workspace) (f parent : ComponentId) (word : String) (position : Nat) :
    List InstructionTree → ComponentId → Prop
  | [], _ => True
  | t :: ts, n => Workspace.Embodies ws f parent word position t n ∧
    Workspace.EmbodiesAll ws f parent word (position + 1) ts (n + t.made)

end

/-! ## Counting -/

namespace InstructionTree

mutual

/-- Each instruction that is read makes one component. -/
theorem length_walk (word name : String) : ∀ t : InstructionTree, (t.walk word name).length = t.made
  | .node source i body => by
    rw [walk, made, List.length_cons]
    split
    · rw [length_walkAll, Nat.add_comm]
    · rfl

theorem length_walkAll (word name : String) : ∀ ts : List InstructionTree,
    (walkAll word name ts).length = madeAll ts
  | [] => rfl
  | t :: ts => by
    rw [walkAll, madeAll, List.length_append, length_walk, length_walkAll]

end

theorem made_eq : ∀ t : InstructionTree, t.made = 1 + madeAll t.contents
  | .node source i body => by
    rw [made, contents]
    split <;> rfl

/-! ## The first failure -/

variable {i : Instruction} {source : InstructionId} {body ts : List InstructionTree} {l name word : String}

theorem fault?_walk_of_closed (h : i.opens = false) :
    ((node source i body).walk word name).findSome? Place.fault? =
      (⟨word, name, i⟩ : Place).fault? := by
  rw [walk, h, if_neg Bool.false_ne_true, List.findSome?_singleton]

/-- Where a body can stand, its own instructions count. -/
theorem fault?_walk_of_opens (hopens : i.opens = true) (hpermitted : i.op ∈ permitted word) :
    ((node source i body).walk word name).findSome? Place.fault? =
      (walkAll i.op i.name body).findSome? Place.fault? := by
  have hfits : (⟨word, name, i⟩ : Place).fault? = none :=
    (Place.fault?_eq_none_iff _).mpr
      ⟨hpermitted, fun hmem => absurd hmem (Instruction.not_member_of_opens hopens)⟩
  rw [walk, if_pos hopens, List.findSome?_cons, hfits]

/-! ## Different names -/

variable {position : Nat}

theorem label_of_declares (h : i.declares = true) : (node source i body).label position = i.name := by
  rw [label, head, if_pos h]

theorem position_of_label {op op' : String} {k k' : Nat}
    (h : op ++ "#" ++ toString k = op' ++ "#" ++ toString k') : k = k' := by
  -- the digits are what stands behind the last hash
  have hdigits : ∀ (op : String) (k : Nat),
      (op ++ "#" ++ toString k).toList.reverse.takeWhile (· ≠ '#') = (Nat.toDigits 10 k).reverse := by
    intro op k
    have hplain : ∀ c ∈ (Nat.toDigits 10 k).reverse, decide (c ≠ '#') = true := by
      intro c hc
      have hdigit := Nat.isDigit_of_mem_toDigits (by decide) (by decide) (List.mem_reverse.mp hc)
      exact decide_eq_true fun heq => absurd (heq ▸ hdigit) (by decide)
    rw [String.toList_append, String.toList_append, Nat.toString_eq_repr, Nat.toList_repr,
      List.reverse_append, List.reverse_append, List.takeWhile_append_of_pos hplain]
    simp
  have hsame := hdigits op k
  rw [h, hdigits op' k', List.reverse_inj] at hsame
  rw [← Nat.ofDigitChars_toDigits (n := k) (b := 10) (by decide) (by decide), ← hsame,
    Nat.ofDigitChars_toDigits (by decide) (by decide)]

theorem hash_mem (op : String) (k : Nat) : '#' ∈ (op ++ "#" ++ toString k).toList := by
  simp

theorem declaredNames_cons (t : InstructionTree) (ts : List InstructionTree) :
    declaredNames (t :: ts) =
      if t.head.declares then t.head.name :: declaredNames ts else declaredNames ts := by
  rw [declaredNames, List.filter_cons]
  split <;> rfl

theorem mem_declaredNames :
    l ∈ declaredNames ts ↔ ∃ t ∈ ts, t.head.declares = true ∧ t.head.name = l := by
  simp [declaredNames, and_assoc]

theorem mem_labels (h : l ∈ labels position ts) : l ∈ declaredNames ts ∨
      ∃ op k, position ≤ k ∧ l = op ++ "#" ++ toString k := by
  induction ts generalizing position with
  | nil => cases h
  | cons t ts ih =>
    rw [declaredNames_cons]
    rcases List.mem_cons.mp h with rfl | h
    · rw [label]
      split
      · exact .inl (.head _)
      · exact .inr ⟨_, position, le_rfl, rfl⟩
    · rcases ih h with hmem | ⟨op, k, hle, rfl⟩
      · left
        split
        · exact .tail _ hmem
        · exact hmem
      · exact .inr ⟨op, k, Nat.le_of_succ_le hle, rfl⟩

/-- **The components of a body have different names**, if its declarations have. -/
theorem nodup_labels (hnodup : (declaredNames ts).Nodup)
    (hplain : ∀ name ∈ declaredNames ts, '#' ∉ name.toList) (position : Nat) :
    (labels position ts).Nodup := by
  induction ts generalizing position with
  | nil => exact List.nodup_nil
  | cons t ts ih =>
    rw [labels, List.nodup_cons, label]
    rw [declaredNames_cons] at hnodup hplain
    by_cases hdeclares : t.head.declares = true
    · rw [if_pos hdeclares] at hnodup hplain ⊢
      obtain ⟨hnew, hnodup⟩ := List.nodup_cons.mp hnodup
      refine ⟨fun hmem => ?_, ih hnodup (fun name hname => hplain name (.tail _ hname)) _⟩
      rcases mem_labels hmem with hmem | ⟨op, k, -, heq⟩
      · exact hnew hmem
      · refine hplain _ (.head _) ?_
        rw [heq]
        exact hash_mem op k
    · rw [if_neg hdeclares] at hnodup hplain ⊢
      refine ⟨fun hmem => ?_, ih hnodup hplain _⟩
      rcases mem_labels hmem with hmem | ⟨op, k, hle, heq⟩
      · exact hplain _ hmem (hash_mem _ _)
      · exact ne_of_lt hle (position_of_label heq)

theorem Distinct.nodup_labels (h : Distinct ts) (position : Nat) :
    (labels position ts).Nodup :=
  InstructionTree.nodup_labels h.1 (fun name hname => (h.2 name hname).2) position

theorem Distinct.undotted (h : Distinct ts) :
    ∀ t ∈ ts, t.head.Undotted := fun t ht hdeclares =>
  (h.2 _ (mem_declaredNames.mpr ⟨t, ht, hdeclares, rfl⟩)).1

mutual

theorem undotted_of_mem_nodes : ∀ {t : InstructionTree}, t.head.Undotted →
    (∀ body ∈ t.bodies, Distinct body) → ∀ {node : InstructionId × Instruction}, node ∈ t.nodes →
      node.2.Undotted
  | .node _ _ body, hhead, h, _, hnode => by
    rcases List.mem_cons.mp hnode with rfl | hnode
    · exact hhead
    · exact undotted_of_mem_nodesAll (h body (.head _)).undotted
        (fun b hb => h b (.tail _ hb)) hnode

theorem undotted_of_mem_nodesAll : ∀ {ts : List InstructionTree}, (∀ t ∈ ts, t.head.Undotted) →
    (∀ body ∈ bodiesAll ts, Distinct body) → ∀ {node : InstructionId × Instruction},
      node ∈ nodesAll ts → node.2.Undotted
  | [], _, _, _, hnode => (List.not_mem_nil hnode).elim
  | t :: _, hheads, h, _, hnode => by
    rcases List.mem_append.mp hnode with hnode | hnode
    · exact undotted_of_mem_nodes (hheads t (.head _))
        (fun b hb => h b (List.mem_append_left _ hb)) hnode
    · exact undotted_of_mem_nodesAll (fun t ht => hheads t (.tail _ ht))
        (fun b hb => h b (List.mem_append_right _ hb)) hnode

end

end InstructionTree

/-! ## Filling a component -/

namespace Component

open InstructionTree

variable (c : Component) (position : Nat) (n : ComponentId)

theorem embed_nil : c.embed position n [] = c := by
  simp [embed, labels, places, paramPlaces]

theorem embed_singleton (t : InstructionTree) : c.embed position n [t] =
    { c with
      kind := c.kind.addParams (if t.head.op = "param" then [n] else [])
      children := c.children ++ [(t.label position, n)]
      childIds := c.childIds ++ [n] } := by
  simp [embed, labels, places, paramPlaces]

theorem embed_cons (t : InstructionTree) (ts : List InstructionTree) :
    (c.embed position n [t]).embed (position + 1) (n + t.made) ts = c.embed position n (t :: ts) := by
  have hkind : ∀ (kind : Kind) (a b : List ComponentId),
      (kind.addParams a).addParams b = kind.addParams (a ++ b) := by
    intro kind a b
    cases kind <;> simp [Kind.addParams]
  simp [embed, labels, places, paramPlaces, hkind]

@[simp] theorem describe_embed (ts : List InstructionTree) :
    (c.embed position n ts).kind.describe = c.kind.describe := by
  show (c.kind.addParams _).describe = _
  cases c.kind <;> rfl

theorem child?_embed {ts : List InstructionTree} {name : String} (h : name ∉ labels position ts) :
    (c.embed position n ts).child? name = c.child? name := by
  have hnone : ((labels position ts).zip (places n ts)).lookup name = none := by
    rw [List.lookup_eq_none_iff]
    rintro ⟨l, x⟩ hmem
    exact bne_iff_ne.mpr fun heq => h (heq ▸ (List.of_mem_zip hmem).1)
  show (c.children ++ _).lookup name = c.children.lookup name
  rw [List.lookup_append, hnone, Option.or_none]

end Component

/-! ## What keeps the components -/

variable {ws ws' : Workspace} {f : ComponentId}

mutual

theorem Workspace.Embodies.of_agree :
    ∀ {t : InstructionTree} {parent : ComponentId} {word : String} {position n : Nat},
      ws.Embodies f parent word position t n →
      (∀ x : Nat, n ≤ x → x < n + t.made → ws'.component x = ws.component x) →
      ws'.Embodies f parent word position t n
  | .node source i body, parent, word, position, n, h, hagree => by
    rw [Workspace.Embodies] at h ⊢
    rw [made] at hagree
    refine ⟨?_, fun hopens => ?_⟩
    · rw [hagree n (Nat.le_refl n) (by omega)]
      exact h.1
    · rw [if_pos hopens] at hagree
      exact Workspace.EmbodiesAll.of_agree (h.2 hopens) fun x hle hlt =>
        hagree x (by omega) (by omega)

theorem Workspace.EmbodiesAll.of_agree :
    ∀ {ts : List InstructionTree} {parent : ComponentId} {word : String} {position n : Nat},
      ws.EmbodiesAll f parent word position ts n →
      (∀ x : Nat, n ≤ x → x < n + madeAll ts → ws'.component x = ws.component x) →
      ws'.EmbodiesAll f parent word position ts n
  | [], _, _, _, _, _, _ => by
    rw [Workspace.EmbodiesAll]
    trivial
  | t :: ts, parent, word, position, n, h, hagree => by
    rw [Workspace.EmbodiesAll] at h ⊢
    rw [madeAll] at hagree
    exact ⟨h.1.of_agree fun x hle hlt => hagree x hle (by omega),
      Workspace.EmbodiesAll.of_agree h.2 fun x hle hlt => hagree x (by omega) (by omega)⟩

end

end LightHeaders
