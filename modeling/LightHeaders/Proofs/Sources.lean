import LightHeaders.Proofs.Changes
import LightHeaders.Proofs.OutlineRoundTrip
import LightHeaders.Prototype
import Mathlib.Data.List.Nodup

set_option autoImplicit false

/-! # What reading a source adds

A source is read into instructions that are new to the forest and hold no line feed, whatever the
text is (`Outline.grown_parse`, `Header.grown_read`). The tree below the new root is made of new
instructions only, each of them once (`Forest.Sound.nodup_ids`), so that no instruction of another
source, nor one of the same source, is ever read into two components.
-/

namespace LightHeaders

open Text Prototype

/-! ## Texts without a line feed -/

/-- The text stands on one line. -/
def OneLine (s : String) : Prop := '\n' ∉ s.toList

instance (s : String) : Decidable (OneLine s) := inferInstanceAs (Decidable ('\n' ∉ s.toList))

variable {c sep : Char} {ls : List (List Char)} {cs : List Char} {s : String}

theorem OneLine.append {t : String} (hs : OneLine s) (ht : OneLine t) : OneLine (s ++ t) := by
  simpa [OneLine] using ⟨hs, ht⟩

theorem oneLine_ofList (h : '\n' ∉ cs) : OneLine (String.ofList cs) := by
  simpa [OneLine] using h

theorem oneLine_of_solid (h : Solid s.toList) : OneLine s := h.not_mem isBlank_newline

theorem oneLine_toString (n : Nat) : OneLine (toString n) := by
  intro hmem
  have hdigit := Nat.isDigit_of_mem_toDigits (by decide) (by decide)
    (show '\n' ∈ Nat.toDigits 10 n by simpa [ToString.toString, Nat.repr] using hmem)
  revert hdigit
  decide

/-- What an instruction says stands on one line. -/
structure Instruction.OneLine (i : Instruction) : Prop where
  name : LightHeaders.OneLine i.name
  type : ∀ type, i.type? = some type → LightHeaders.OneLine type

instance (i : Instruction) : Decidable i.OneLine :=
  decidable_of_iff (OneLine i.name ∧ ∀ type ∈ i.type?, OneLine type)
    ⟨fun h => ⟨h.1, h.2⟩, fun h => ⟨h.1, h.2⟩⟩

theorem Wording.Valid.oneLine {i : Instruction} (h : i.wording.Valid) : i.OneLine where
  name := by
    rcases h.name with hn | hn | ⟨quote, body, hq, hbody, -, hno⟩
    · change i.name = "" at hn
      rw [hn]
      decide
    · exact oneLine_of_solid hn.1
    · have hne : '\n' ≠ quote := by
        rintro rfl
        revert hq
        decide
      change '\n' ∉ i.name.toList
      rw [show i.name.toList = _ from hbody]
      simp [hne, hno]
  type type ht := oneLine_of_solid (h.type type ht).2

/-! ### Cutting adds nothing -/

theorem mem_of_mem_splitAt {piece : List Char} (hp : piece ∈ splitAt sep cs) (hc : c ∈ piece) : c ∈ cs := by
  induction cs generalizing piece with
  | nil =>
    rw [splitAt, List.mem_singleton] at hp
    rw [hp] at hc
    cases hc
  | cons d cs ih =>
    rw [splitAt] at hp
    split at hp
    · rcases List.mem_cons.mp hp with rfl | hp
      · cases hc
      · exact .tail _ (ih hp hc)
    · split at hp
      · rw [List.mem_singleton.mp hp, List.mem_singleton] at hc
        rw [hc]
        exact .head _
      · next first others hs =>
        rw [hs] at ih
        rcases List.mem_cons.mp hp with rfl | hp
        · rcases List.mem_cons.mp hc with rfl | hc
          · exact .head _
          · exact .tail _ (ih (.head _) hc)
        · exact .tail _ (ih (.tail _ hp) hc)

theorem before?_sublist {a b : Char} {front : List Char} (h : before? a b cs = some front) :
    front.Sublist cs := by
  induction cs using before?.induct a b generalizing front with
  | case1 c d cs hcd =>
    rw [before?, if_pos hcd] at h
    cases h
    exact List.nil_sublist _
  | case2 c d cs hcd ih =>
    rw [before?, if_neg hcd] at h
    obtain ⟨rest, hrest, rfl⟩ := Option.map_eq_some_iff.mp h
    exact (ih hrest).cons_cons c
  | case3 cs hno =>
    rw [before?.eq_2 a b cs hno] at h
    cases h

theorem after?_sublist {a b : Char} {back : List Char} (h : after? a b cs = some back) :
    back.Sublist cs := by
  induction cs using after?.induct a b with
  | case1 c d cs hcd =>
    rw [after?, if_pos hcd] at h
    cases h
    exact ((List.Sublist.refl _).cons d).cons c
  | case2 c d cs hcd ih =>
    rw [after?, if_neg hcd] at h
    exact (ih h).cons c
  | case3 cs hno =>
    rw [after?.eq_2 a b cs hno] at h
    cases h

theorem mem_of_mem_wordsFrom : ∀ {current w : List Char},
    w ∈ wordsFrom current cs → c ∈ w → c ∈ current ∨ c ∈ cs := by
  induction cs with
  | nil =>
    intro current w hw hc
    rw [wordsFrom] at hw
    split at hw
    · cases hw
    · rw [List.mem_singleton.mp hw, List.mem_reverse] at hc
      exact .inl hc
  | cons d cs ih =>
    intro current w hw hc
    have hlater : ∀ {current' : List Char}, (∀ x ∈ current', x ∈ current ∨ x = d) →
        w ∈ wordsFrom current' cs → c ∈ current ∨ c ∈ d :: cs := by
      intro current' hcur hw
      rcases ih hw hc with hmem | hmem
      · rcases hcur c hmem with hmem | rfl
        · exact .inl hmem
        · exact .inr (.head _)
      · exact .inr (.tail _ hmem)
    rw [wordsFrom] at hw
    split at hw
    · split at hw
      · exact hlater (by simp) hw
      · rcases List.mem_cons.mp hw with rfl | hw
        · exact .inl (List.mem_reverse.mp hc)
        · exact hlater (by simp) hw
    · exact hlater (by simp [or_comm]) hw

theorem mem_of_mem_words {w : List Char} (hw : w ∈ words cs) (hc : c ∈ w) :
    c ∈ cs := by
  rcases mem_of_mem_wordsFrom hw hc with h | h
  · cases h
  · exact h

theorem mem_of_mem_join {sep : List Char} (h : c ∈ Text.join sep ls) : c ∈ sep ∨ ∃ l ∈ ls, c ∈ l := by
  induction ls using Text.join.induct with
  | case1 => cases h
  | case2 piece => exact .inr ⟨piece, List.mem_singleton.mpr rfl, h⟩
  | case3 piece next pieces ih =>
    rw [Text.join, List.mem_append, List.mem_append] at h
    rcases h with (h | h) | h
    · exact .inr ⟨piece, .head _, h⟩
    · exact .inl h
    · rcases ih h with h | ⟨l, hl, hc⟩
      · exact .inl h
      · exact .inr ⟨l, .tail _ hl, hc⟩

theorem oneLine_glue {sep : String} {texts : List String} (hsep : OneLine sep)
    (h : ∀ t ∈ texts, OneLine t) : OneLine (glue sep texts) := by
  refine oneLine_ofList fun hmem => ?_
  rcases mem_of_mem_join hmem with hmem | ⟨l, hl, hmem⟩
  · exact hsep hmem
  · obtain ⟨t, ht, rfl⟩ := List.mem_map.mp hl
    exact h t ht hmem

theorem oneLine_of_mem_pieces {piece : String} (hs : OneLine s)
    (h : piece ∈ pieces sep s) : OneLine piece := by
  obtain ⟨cs, hcs, rfl⟩ := List.mem_map.mp h
  exact oneLine_ofList fun hmem => hs (mem_of_mem_splitAt hcs hmem)

/-! ## Growing forests -/

namespace Forest

/-- `g` is `f` with instructions added one by one behind it, none of them with children or a line feed. -/
inductive Grown (f : Forest) : Forest → Prop
  | refl : Grown f f
  | add {g : Forest} {i : Instruction} :
      Grown f g → i.children = [] → i.OneLine → Grown f (g.add i).2
  | addChild {g : Forest} {parent : InstructionId} {i : Instruction} :
      Grown f g → f.size ≤ parent → parent < g.size → i.children = [] → i.OneLine → Grown f (g.addChild parent i).2

namespace Grown

variable {f g : Forest}

theorem sound (h : f.Grown g) (hf : f.Sound) : g.Sound := by
  induction h with
  | refl => exact hf
  | add _ hi _ ih => exact ih.add hi
  | addChild _ _ hp hi _ ih => exact ih.addChild hp hi

theorem get (h : f.Grown g) {id : InstructionId} (hid : id < f.size) : id < g.size ∧ g.get id = f.get id := by
  induction h with
  | refl => exact ⟨hid, rfl⟩
  | add _ _ _ ih =>
    rw [size_add, get_add_of_lt _ _ ih.1]
    exact ⟨Nat.lt_succ_of_lt ih.1, ih.2⟩
  | addChild _ hlo _ _ _ ih =>
    rw [size_addChild, get_addChild_of_ne _ ih.1 (ne_of_lt (lt_of_lt_of_le hid hlo))]
    exact ⟨Nat.lt_succ_of_lt ih.1, ih.2⟩

theorem oneLine (h : f.Grown g) {id : InstructionId} (hlo : f.size ≤ id) (hhi : id < g.size) :
    (g.get id).OneLine := by
  induction h with
  | refl => exact absurd hhi (Nat.not_lt_of_le hlo)
  | @add g i _ hi hone ih =>
    rw [get_add]
    split
    · exact hone
    · next hne =>
      rw [size_add] at hhi
      exact ih (Nat.lt_of_le_of_ne (Nat.le_of_lt_succ hhi) hne)
  | @addChild g parent i _ _ hp hi hone ih =>
    rw [size_addChild] at hhi
    by_cases hnew : id = g.size
    · rw [hnew, get_addChild_size g hp]
      exact hone
    · have hold : id < g.size := Nat.lt_of_le_of_ne (Nat.le_of_lt_succ hhi) hnew
      by_cases hpar : id = parent
      · rw [hpar, get_addChild_parent g hp]
        have h := ih hold
        rw [hpar] at h
        exact ⟨h.name, h.type⟩
      · rw [get_addChild_of_ne g hold hpar]
        exact ih hold

end Grown

end Forest

/-! ### Outlines -/

namespace Outline

/-- **Reading an outline adds instructions**, also if a line cannot be read. -/
theorem grown_parse (source : String) (f : Forest) : f.Grown (parse source f).1 :=
  parse_keeps source (.add .refl rfl ⟨by decide, by simp [Instruction.root]⟩)
    fun h hlo hhi hvalid hbare => h.addChild hlo hhi hbare hvalid.oneLine

end Outline

/-! ### C++ headers -/

/-- What a prototype says stands on one line. -/
structure Prototype.OneLine (p : Prototype) : Prop where
  name : LightHeaders.OneLine p.name
  result : LightHeaders.OneLine p.result
  params : ∀ param ∈ p.params, LightHeaders.OneLine param.1 ∧ LightHeaders.OneLine param.2

theorem mem_of_mem_closeUp {mark : Char} (h : c ∈ closeUp mark cs) :
    c ∈ cs := by
  induction cs using closeUp.induct mark with
  | case1 rest ih =>
    rw [closeUp, if_pos rfl] at h
    rcases List.mem_cons.mp h with rfl | h
    · simp
    · simp [ih h]
  | case2 d rest hd ih =>
    rw [closeUp, if_neg hd] at h
    rcases List.mem_cons.mp h with rfl | h
    · simp
    · exact .tail _ (ih h)
  | case3 d rest hno ih =>
    rw [closeUp.eq_2] at h
    · rcases List.mem_cons.mp h with rfl | h
      · exact .head _
      · exact .tail _ (ih h)
    · exact hno
  | case4 => cases h

theorem oneLine_of_typeAndName? {type name : String} (hcs : '\n' ∉ cs)
    (h : typeAndName? cs = some (type, name)) : OneLine type ∧ OneLine name := by
  have hword : ∀ w ∈ (words cs).filter fun w => !specifiers.contains (String.ofList w),
      '\n' ∉ w := fun w hw hc => hcs (mem_of_mem_words (List.mem_of_mem_filter hw) hc)
  unfold typeAndName? at h
  dsimp only at h
  generalize (words cs).filter _ = all at h hword
  split at h
  · cases h
  · cases h
  · next hlast hne =>
    have hl := hword _ (List.mem_of_getLast? hlast)
    split at h
    · cases h
    · cases h
      constructor
      · refine oneLine_ofList fun hmem => ?_
        have hmem := mem_of_mem_closeUp (mem_of_mem_closeUp hmem)
        rw [List.mem_append] at hmem
        rcases hmem with hmem | hmem
        · rcases mem_of_mem_join hmem with hmem | ⟨w, hw, hmem⟩
          · exact absurd hmem (by decide)
          · exact hword w (List.dropLast_subset all hw) hmem
        · exact hl ((List.takeWhile_prefix _).mem hmem)
      · exact oneLine_ofList fun hmem => hl ((List.dropWhile_suffix _).mem hmem)

theorem oneLine_of_parseParams? (hls : ∀ l ∈ ls, '\n' ∉ l) {index : Nat} {params : List (String × String)}
    (h : parseParams? index ls = some params) :
    ∀ param ∈ params, OneLine param.1 ∧ OneLine param.2 := by
  induction ls generalizing index params with
  | nil =>
    cases h
    simp
  | cons cs rest ih =>
    have hcs : '\n' ∉ trim cs := fun hmem => hls cs (.head _) (mem_of_mem_trim hmem)
    rw [parseParams?] at h
    obtain ⟨param, hparam, h⟩ := Option.bind_eq_some_iff.mp h
    obtain ⟨others, hothers, h⟩ := Option.bind_eq_some_iff.mp h
    cases h
    intro p hp
    rcases List.mem_cons.mp hp with rfl | hp
    · unfold parseParam? at hparam
      split at hparam
      · next type name htn =>
        cases hparam
        exact (oneLine_of_typeAndName? hcs htn).symm
      · split at hparam
        · cases hparam
        · cases hparam
          exact ⟨OneLine.append (by decide) (oneLine_toString index), oneLine_ofList hcs⟩
    · exact ih (fun l hl => hls l (.tail _ hl)) hothers p hp

theorem Prototype.exists_of_parse? {p : Prototype} (h : parse? cs = some p) : ∃ front inner tail,
    cs = front ++ '(' :: (inner ++ ')' :: tail) ∧ typeAndName? front = some (p.result, p.name) ∧
      (p.params = [] ∨ parseParams? 0 (splitAt ',' (trim inner)) = some p.params) := by
  unfold parse? at h
  split at h
  · cases h
  · obtain ⟨⟨front, back⟩, hfirst, h⟩ := Option.bind_eq_some_iff.mp h
    obtain ⟨⟨inner, tail⟩, hlast, h⟩ := Option.bind_eq_some_iff.mp h
    dsimp only at h
    split at h
    · cases h
    · obtain ⟨⟨result, name⟩, hdeclarator, h⟩ := Option.bind_eq_some_iff.mp h
      have hcut : cs = front ++ '(' :: (inner ++ ')' :: tail) := by
        rw [← cutLast?_eq_some hlast]
        exact (Line.cutFirst?_eq_some hfirst).2
      refine ⟨front, inner, tail, hcut, ?_⟩
      dsimp only at h
      split at h
      · cases h
        exact ⟨hdeclarator, .inl rfl⟩
      · obtain ⟨params, hparams, h⟩ := Option.bind_eq_some_iff.mp h
        cases h
        exact ⟨hdeclarator, .inr hparams⟩

theorem Prototype.oneLine_of_parse? {p : Prototype} (hcs : '\n' ∉ cs) (h : parse? cs = some p) :
    p.OneLine := by
  obtain ⟨front, inner, tail, rfl, hdeclarator, hparams⟩ := exists_of_parse? h
  obtain ⟨hresult, hname⟩ := oneLine_of_typeAndName? (fun hmem => hcs (by simp [hmem])) hdeclarator
  refine ⟨hname, hresult, ?_⟩
  rcases hparams with hnil | hparams
  · simp [hnil]
  · refine oneLine_of_parseParams? (fun l hl hmem => hcs ?_) hparams
    simp [mem_of_mem_trim (mem_of_mem_splitAt hl hmem)]

namespace Header

theorem codeOf_sublist (line : List Char) : (codeOf line).1.Sublist line := by
  have hcode : ((before? '/' '/' line).getD line).Sublist line := by
    cases hb : before? '/' '/' line with
    | none => exact .refl line
    | some front => exact before?_sublist hb
  unfold codeOf
  dsimp only
  split
  · exact hcode
  · next front hb => exact (before?_sublist hb).trans hcode

/-- What is read of a line: all of it, or what stands behind the end of a comment. -/
theorem sublist_of_uncommented {inComment : Bool} {raw line : List Char}
    (h : (if inComment then (after? '*' '/' (trim raw)).map trim else some (trim raw)) = some line) :
    line.Sublist raw := by
  split at h
  · obtain ⟨back, hback, rfl⟩ := Option.map_eq_some_iff.mp h
    exact (trim_sublist back).trans ((after?_sublist hback).trans (trim_sublist raw))
  · cases h
    exact trim_sublist raw

theorem newline_not_mem_code (hls : ∀ l ∈ ls, '\n' ∉ l) (inComment : Bool) : '\n' ∉ code inComment ls := by
  induction ls generalizing inComment with
  | nil => simp [code]
  | cons raw rest ih =>
    have hrest := ih fun l hl => hls l (.tail _ hl)
    rw [code]
    dsimp only
    split
    · exact hrest true
    · next line hl =>
      split
      · exact hrest false
      · rw [List.mem_append, List.mem_cons, not_or, not_or]
        refine ⟨fun hmem => hls raw (.head _) ?_, by decide, hrest _⟩
        exact ((codeOf_sublist line).trans (sublist_of_uncommented hl)).mem hmem

theorem newline_not_mem_declarations (source : String) :
    ∀ d ∈ declarations source, '\n' ∉ d := by
  intro d hd hmem
  obtain ⟨piece, hpiece, rfl⟩ := List.mem_map.mp hd
  exact newline_not_mem_code (fun l hl => newline_not_mem_of_mem_lines hl) false
    (mem_of_mem_splitAt (List.dropLast_subset _ hpiece) (mem_of_mem_trim hmem))

end Header

theorem Forest.size_lt_add (f : Forest) (i : Instruction) : f.size < (f.add i).2.size := by
  rw [Forest.size_add]
  exact Nat.lt_succ_self _

theorem Forest.size_lt_addChild (f : Forest) (parent : InstructionId) (i : Instruction) :
    f.size < (f.addChild parent i).2.size := by
  rw [Forest.size_addChild]
  exact Nat.lt_succ_self _

theorem Prototype.grown_addTo (p : Prototype) (hp : p.OneLine) {f g : Forest} {root : InstructionId}
    (h : f.Grown g) (hlo : f.size ≤ root) (hroot : root < g.size) :
    f.Grown (p.addTo root g) ∧ g.size < (p.addTo root g).size := by
  refine List.foldlRecOn (motive := fun g' : Forest => f.Grown g' ∧ g.size < g'.size) p.params _
    ⟨h.addChild hlo hroot rfl ⟨hp.name, by rintro _ ⟨⟩; exact hp.result⟩, g.size_lt_addChild root _⟩ ?_
  rintro g' ⟨hgrown, hlt⟩ param hparam
  obtain ⟨hname, htype⟩ := hp.params param hparam
  exact ⟨hgrown.addChild (le_of_lt (lt_of_le_of_lt hlo hroot)) hlt rfl ⟨hname, by rintro _ ⟨⟩; exact htype⟩,
    lt_trans hlt (g'.size_lt_addChild _ _)⟩

/-- **Reading a header adds instructions**, the first of them the root. -/
theorem Header.grown_read (source : String) (f : Forest) :
    f.Grown (Header.read source f).1 ∧ (Header.read source f).2 = f.size ∧
      f.size < (Header.read source f).1.size := by
  have hroot : f.Grown (f.add .root).2 := .add .refl rfl ⟨by decide, by simp [Instruction.root]⟩
  have hread : f.Grown (Header.read source f).1 ∧ f.size < (Header.read source f).1.size := by
    refine List.foldlRecOn (motive := fun g : Forest => f.Grown g ∧ f.size < g.size) _ _
      ⟨hroot, f.size_lt_add .root⟩ ?_
    rintro g ⟨hgrown, hlt⟩ p hp
    obtain ⟨d, hd, hparse⟩ := List.mem_filterMap.mp hp
    have hone := oneLine_of_parse? (Header.newline_not_mem_declarations source d hd) hparse
    obtain ⟨hgrown', hlt'⟩ := p.grown_addTo hone hgrown le_rfl hlt
    exact ⟨hgrown', lt_trans hlt hlt'⟩
  exact ⟨hread.1, rfl, hread.2⟩

/-! ### Sources -/

/-- Adds the instructions of a source to a forest; no root if it cannot be read. -/
def Language.read (language : Language) (source : String) (f : Forest) :
    Forest × Option InstructionId :=
  match language with
  | .cpp => ((Header.read source f).1, some (Header.read source f).2)
  | .light => ((Outline.parse source f).1, (Outline.parse source f).2.toOption)

/-- The instructions of a source come after those that are there, its root as the first of them. -/
theorem Language.read_spec (language : Language) (source : String) (f : Forest) :
    f.Grown (language.read source f).1 ∧
      ∀ root, (language.read source f).2 = some root →
        root = f.size ∧ root < (language.read source f).1.size := by
  cases language with
  | cpp =>
    obtain ⟨hgrown, hroot, hlt⟩ := Header.grown_read source f
    refine ⟨hgrown, ?_⟩
    rintro _ ⟨⟩
    exact ⟨rfl, hlt⟩
  | light =>
    refine ⟨Outline.grown_parse source f, fun root hroot => ?_⟩
    have hlt := (Outline.WellRead.of_parse source f).root_lt
    rw [Language.read] at hroot
    cases hr : (Outline.parse source f).2 with
    | error e =>
      rw [hr] at hroot
      cases hroot
    | ok r =>
      rw [hr] at hroot
      cases hroot
      rw [Outline.root_of_parse (Prod.ext rfl hr)]
      exact ⟨rfl, hlt⟩

/-! ## The tree below an instruction -/

namespace InstructionTree

mutual

/-- The instructions of a tree with their numbers, in the order in which they are read. -/
def nodes : InstructionTree → List (InstructionId × Instruction)
  | .node id head children => (id, head) :: nodesAll children

/-- The instructions of trees with their numbers. -/
def nodesAll : List InstructionTree → List (InstructionId × Instruction)
  | [] => []
  | t :: ts => t.nodes ++ nodesAll ts

end

theorem nodesAll_eq_flatMap (ts : List InstructionTree) : nodesAll ts = ts.flatMap nodes := by
  induction ts with
  | nil => simp [nodesAll]
  | cons t ts ih => simp [nodesAll, ih]

/-- The numbers of the instructions of a tree. -/
def ids (t : InstructionTree) : List InstructionId := t.nodes.map Prod.fst

/-- The numbers of the instructions of trees. -/
def idsAll (ts : List InstructionTree) : List InstructionId := (nodesAll ts).map Prod.fst

theorem idsAll_eq_flatMap (ts : List InstructionTree) : idsAll ts = ts.flatMap ids := by
  simp only [idsAll, nodesAll_eq_flatMap, List.map_flatMap]
  rfl

end InstructionTree

namespace Forest

/-- `x` is `a` or stands below it. -/
inductive Under (f : Forest) (a : InstructionId) : InstructionId → Prop
  | self : Under f a a
  | child {p x : InstructionId} : Under f a p → x ∈ (f.get p).children → Under f a x

namespace Under

variable {f : Forest} {a b x : InstructionId}

theorem le (hf : f.Sound) (h : f.Under a x) : a ≤ x := by
  induction h with
  | self => exact le_rfl
  | child _ hmem ih => exact le_of_lt (lt_of_le_of_lt ih (hf.later hmem).1)

theorem lt_size (hf : f.Sound) (ha : a < f.size) (h : f.Under a x) : x < f.size := by
  cases h with
  | self => exact ha
  | child _ hmem => exact (hf.later hmem).2

theorem head (hb : b ∈ (f.get a).children) (h : f.Under b x) : f.Under a x := by
  induction h with
  | self => exact .child .self hb
  | child _ hmem ih => exact .child ih hmem

theorem disjoint (hf : f.Sound) {c d : InstructionId} (hc : c ∈ (f.get a).children)
    (hd : d ∈ (f.get a).children) (hne : c ≠ d) (hcx : f.Under c x) : ¬f.Under d x := by
  -- neither child is above the instruction they stand below
  have hno : ∀ {e : InstructionId}, e ∈ (f.get a).children → ¬f.Under e a := fun he hu =>
    Nat.not_le_of_lt (hf.later he).1 (hu.le hf)
  induction hcx with
  | self =>
    intro hdc
    cases hdc with
    | self => exact hne rfl
    | child hdp hmem => exact hno hd (hf.parent_unique hmem hc ▸ hdp)
  | child hcp hmem ih =>
    intro hdx
    cases hdx with
    | self => exact hno hc (hf.parent_unique hmem hd ▸ hcp)
    | child hdp hmem' => exact ih (hf.parent_unique hmem' hmem ▸ hdp)

end Under

variable {f : Forest}

theorem mem_nodes_treeWithin {n : Nat} {a x : InstructionId} {i : Instruction}
    (h : (x, i) ∈ (f.treeWithin n a).nodes) : f.Under a x ∧ i = f.get x := by
  induction n generalizing a with
  | zero =>
    rw [treeWithin, InstructionTree.nodes, InstructionTree.nodesAll, List.mem_singleton] at h
    cases h
    exact ⟨.self, rfl⟩
  | succ n ih =>
    rw [treeWithin, InstructionTree.nodes, InstructionTree.nodesAll_eq_flatMap,
      List.flatMap_map, List.mem_cons, List.mem_flatMap] at h
    rcases h with h | ⟨c, hc, h⟩
    · cases h
      exact ⟨.self, rfl⟩
    · exact ⟨(ih h).1.head hc, (ih h).2⟩

/-- **No instruction comes twice in a tree.** -/
theorem Sound.nodup_ids (hf : f.Sound) (n : Nat) (a : InstructionId) : (f.treeWithin n a).ids.Nodup := by
  have hmem : ∀ {m : Nat} {b x : InstructionId}, x ∈ (f.treeWithin m b).ids → f.Under b x := by
    intro m b x hx
    obtain ⟨⟨y, i⟩, hy, rfl⟩ := List.mem_map.mp hx
    exact (mem_nodes_treeWithin hy).1
  induction n generalizing a with
  | zero => simp [treeWithin, InstructionTree.ids, InstructionTree.nodes, InstructionTree.nodesAll]
  | succ n ih =>
    have heq : (f.treeWithin (n + 1) a).ids
        = a :: (f.get a).children.flatMap fun c => (f.treeWithin n c).ids := by
      have h := InstructionTree.idsAll_eq_flatMap ((f.get a).children.map (f.treeWithin n))
      rw [List.flatMap_map] at h
      rw [← h, treeWithin]
      simp [InstructionTree.ids, InstructionTree.idsAll, InstructionTree.nodes]
    rw [heq, List.nodup_cons]
    constructor
    · intro ha
      obtain ⟨c, hc, hac⟩ := List.mem_flatMap.mp ha
      exact Nat.not_le_of_lt (hf.later hc).1 ((hmem hac).le hf)
    · refine List.nodup_flatMap.mpr ⟨fun c _ => ih c, ?_⟩
      refine (hf.nodup a).imp_of_mem fun {c d} hc hd hne x hcx hdx => ?_
      exact Under.disjoint hf hc hd hne (hmem hcx) (hmem hdx)

end Forest

end LightHeaders
