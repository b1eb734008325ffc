import LightHeaders.Proofs.LinePhrases

set_option autoImplicit false

/-! # The grammar of a line

The **wording** of an instruction is what its line says: operation, name, type and settings. It is
**valid** (`Wording.Valid`) if each part can be told from the next one on the line, so that its line is
that of a phrase (`Wording.phrase`). Reading and writing agree on the valid wordings:

* `parse_render`: the line of a valid wording is read as that wording;
* `valid_of_parse`: what a line is read as is valid.
-/

namespace LightHeaders

open Text

/-! ## Wordings -/

/-- What the line of an instruction says. -/
structure Wording where
  op : String
  name : String
  type? : Option String
  attributes : List (String × String)
deriving DecidableEq, Repr

/-- The wording of an instruction. -/
def Instruction.wording (i : Instruction) : Wording := ⟨i.op, i.name, i.type?, i.attributes⟩

/-- The instruction with a wording, with nothing below it and no line of its own. -/
def Wording.instruction (w : Wording) : Instruction :=
  { op := w.op, name := w.name, type? := w.type?, attributes := w.attributes }

@[simp] theorem Wording.wording_instruction (w : Wording) : w.instruction.wording = w := rfl

theorem Line.render_wording (i : Instruction) : Line.render i.wording.instruction = Line.render i :=
  rfl

namespace Line

/-! ## Valid wordings -/

/-- A literal on one line: its first unescaped closing quote is its last character. -/
def IsLiteral (cs : List Char) : Prop :=
  ∃ quote body, isQuote quote = true ∧ cs = quote :: (body ++ [quote]) ∧ Quoted quote body ∧
    '\n' ∉ body

/-- A word that starts neither a type nor a setting nor a literal. -/
def IsPlainName (cs : List Char) : Prop :=
  Solid cs ∧ ∀ c, cs.head? = some c → c ≠ ':' ∧ c ≠ '@' ∧ isQuote c = false

/-- A setting as a line has it: a key without `=`, and a value. -/
def IsAttribute (a : String × String) : Prop :=
  a.1 ≠ "" ∧ Solid a.1.toList ∧ '=' ∉ a.1.toList ∧ Solid a.2.toList

end Line

/-- Each part of the wording can be told from the next one on a line. -/
structure Wording.Valid (w : Wording) : Prop where
  op_ne : w.op ≠ ""
  op_solid : Solid w.op.toList
  op_head : w.op.toList.head? ≠ some '#'
  name : w.name = "" ∨ Line.IsPlainName w.name.toList ∨ Line.IsLiteral w.name.toList
  type : ∀ type, w.type? = some type → type ≠ "" ∧ Solid type.toList
  attributes : ∀ a ∈ w.attributes, Line.IsAttribute a

namespace Line

/-! ## The phrase of a wording -/

/-- The blank before what follows, if anything does. -/
def gapTo (rest : List Char) : List Char := if rest = [] then [] else [' ']

/-- Settings as they are written. -/
def settingsOf : List (String × String) → List Setting
  | [] => []
  | a :: as => ⟨a.1.toList, some a.2.toList, gapTo (settingsText (settingsOf as))⟩ :: settingsOf as

end Line

/-- The line of a wording, cut into its parts. -/
def Wording.phrase (w : Wording) : Line.Phrase :=
  let settings := Line.settingsOf w.attributes
  let type? := w.type?.map fun type =>
    (⟨[' '], type.toList, Line.gapTo (Line.settingsText settings)⟩ : Line.TypePart)
  let tail := Line.typeText (Line.settingsText settings) type?
  let name? : Option Line.NamePart := if w.name = "" then none else some ⟨w.name.toList, Line.gapTo tail⟩
  ⟨w.op.toList, Line.gapTo (Line.nameText tail name?), name?, type?, settings⟩

namespace Line

variable {cs rest : List Char} {ss : List Setting} {w : Wording} {i : Instruction}

theorem gap_gapTo (rest : List Char) : Gap (gapTo rest) := by
  unfold gapTo
  split
  · exact fun c hc => by cases hc
  · intro c hc
    rw [List.mem_singleton.mp hc, isBlank_space]

theorem parted_gapTo (rest : List Char) : Parted (gapTo rest ++ rest) := by
  by_cases h : rest = []
  · rw [h]
    exact Parted.nil
  · rw [gapTo, if_neg h]
    exact Parted.cons isBlank_space _

theorem gapTo_append (h : rest ≠ []) : gapTo rest ++ rest = ' ' :: rest := by
  rw [gapTo, if_neg h]
  rfl

theorem flatMap_renderAttribute (as : List (String × String)) :
    as.flatMap renderAttribute
      = gapTo (settingsText (settingsOf as)) ++ settingsText (settingsOf as) := by
  induction as with
  | nil => rfl
  | cons a as ih =>
    rw [List.flatMap_cons, ih, settingsOf, settingsText, gapTo_append (List.cons_ne_nil _ _)]
    simp [renderAttribute, Setting.word]

theorem text_phrase (w : Wording) : w.phrase.text = render w.instruction := by
  have htype : renderType w.type? ++ w.attributes.flatMap renderAttribute
      = gapTo w.phrase.tail ++ w.phrase.tail := by
    rw [flatMap_renderAttribute]
    cases ht : w.type? with
    | none => simp [Wording.phrase, Phrase.tail, ht, typeText, renderType]
    | some type =>
      simp only [Wording.phrase, Phrase.tail, ht, Option.map_some, typeText]
      rw [gapTo_append (List.cons_ne_nil _ _)]
      simp [renderType]
  have hname : renderName w.name ++ (gapTo w.phrase.tail ++ w.phrase.tail)
      = w.phrase.gap ++ nameText w.phrase.tail w.phrase.name? := by
    by_cases hn : w.name = ""
    · simp [Wording.phrase, Phrase.tail, hn, nameText, renderName]
    · have hne : ∀ more : List Char, w.name.toList ++ more ≠ [] := fun more hnil =>
        hn (String.toList_eq_nil_iff.mp (List.append_eq_nil_iff.mp hnil).1)
      simp only [Wording.phrase, Phrase.tail, hn, if_false, nameText, renderName]
      rw [gapTo_append (hne _)]
      simp
  rw [Phrase.text, ← hname, ← htype]
  simp [Wording.phrase, render, Wording.instruction]

theorem instruction_phrase (w : Wording) : w.phrase.instruction = w.instruction := by
  have hsettings : ∀ as : List (String × String), (settingsOf as).map Setting.entry = as := by
    intro as
    induction as with
    | nil => rfl
    | cons a as ih => simp [settingsOf, Setting.entry, ih]
  have hname : (w.phrase.name?.elim [] NamePart.name) = w.name.toList := by
    by_cases hn : w.name = ""
    · simp [Wording.phrase, hn]
    · simp [Wording.phrase, hn]
  rw [Phrase.instruction, hname]
  simp [Wording.phrase, Wording.instruction, hsettings, Function.comp_def]

theorem settingsValid_settingsOf {as : List (String × String)} (h : ∀ a ∈ as, IsAttribute a) :
    SettingsValid (settingsOf as) := by
  induction as with
  | nil => exact trivial
  | cons a as ih =>
    obtain ⟨hne, hkey, heq, hvalue⟩ := h a (.head _)
    have hkeyne : a.1.toList ≠ [] := mt String.toList_eq_nil_iff.mp hne
    refine ⟨⟨hkeyne, heq, ⟨?_, ?_, parted_gapTo _⟩, gap_gapTo _⟩, ih fun b hb => h b (.tail _ hb)⟩
    · exact fun hnil => hkeyne (List.append_eq_nil_iff.mp hnil).1
    · intro c hc
      rcases List.mem_append.mp hc with hc | hc
      · exact hkey c hc
      · rcases List.mem_cons.mp hc with rfl | hc
        · decide
        · exact hvalue c hc

theorem grammatical_phrase (h : w.Valid) : w.phrase.Grammatical where
  op := ⟨mt String.toList_eq_nil_iff.mp h.op_ne, h.op_solid, parted_gapTo _⟩
  gap := gap_gapTo _
  name n hn := by
    by_cases hname : w.name = ""
    · simp [Wording.phrase, hname] at hn
    · simp only [Wording.phrase, hname, if_false, Option.some.injEq] at hn
      subst hn
      refine ⟨?_, gap_gapTo _⟩
      rcases h.name with hempty | ⟨hsolid, hhead⟩ | ⟨quote, body, hq, hlit, hbody, -⟩
      · exact absurd hempty hname
      · have hword : IsWord w.name.toList (gapTo w.phrase.tail ++ w.phrase.tail) :=
          ⟨mt String.toList_eq_nil_iff.mp hname, hsolid, parted_gapTo _⟩
        obtain ⟨c, cs, hcs⟩ := List.exists_cons_of_ne_nil hword.ne_nil
        obtain ⟨hcolon, hat, hquote⟩ := hhead c (by rw [hcs]; rfl)
        rw [hcs] at hword
        show IsName (gapTo w.phrase.tail ++ w.phrase.tail) w.name.toList
        rw [hcs]
        exact .plain hword hcolon hat hquote
      · show IsName _ w.name.toList
        rw [hlit]
        exact .quoted hq hbody
  type t ht := by
    obtain ⟨type, htype, rfl⟩ := Option.map_eq_some_iff.mp ht
    obtain ⟨hne, hsolid⟩ := h.type type htype
    refine ⟨fun c hc => ?_, ⟨mt String.toList_eq_nil_iff.mp hne, hsolid, parted_gapTo _⟩, gap_gapTo _⟩
    rw [List.mem_singleton.mp hc, isBlank_space]
  settings := settingsValid_settingsOf h.attributes

/-- **The line of a valid wording is read as that wording.** -/
theorem parse_render (h : w.Valid) : parse (render w.instruction) = .ok w.instruction := by
  rw [← text_phrase, parse_text (grammatical_phrase h), instruction_phrase]

/-! ## The wording of a phrase -/

theorem solid_true : Solid "true".toList := by
  intro c hc
  simp at hc
  rcases hc with rfl | rfl | rfl | rfl <;> rfl

theorem isAttribute_of_settingsValid (h : SettingsValid ss) : ∀ a ∈ ss.map Setting.entry, IsAttribute a := by
  induction ss with
  | nil => exact fun a ha => by cases ha
  | cons s ss ih =>
    intro a ha
    rcases List.mem_cons.mp ha with rfl | ha
    · obtain ⟨hne, heq, hword, -⟩ := h.1
      have hvalue : Solid (s.value?.getD "true".toList) := by
        cases hv : s.value? with
        | none => exact solid_true
        | some value =>
          intro c hc
          refine hword.solid c ?_
          rw [Setting.word, hv]
          exact List.mem_append_right _ (.tail _ hc)
      have hkey : Solid s.key := fun c hc => hword.solid c (List.mem_append_left _ hc)
      simpa [IsAttribute, Setting.entry] using ⟨hne, hkey, heq, hvalue⟩
    · exact ih h.2 a ha

/-- **What a line is read as is valid.** The line has no blank at its start, is not silent and
holds no line feed. -/
theorem valid_of_parse (hf : Flush cs) (hne : cs ≠ []) (hhash : cs.head? ≠ some '#') (hn : '\n' ∉ cs)
    (h : parse cs = .ok i) :
    i.wording.Valid ∧ i = i.wording.instruction := by
  obtain ⟨p, hp, rfl, rfl⟩ := exists_phrase_of_parse hf hne h
  refine ⟨⟨?_, ?_, ?_, ?_, ?_, isAttribute_of_settingsValid hp.settings⟩, rfl⟩
  · simpa [Instruction.wording, Phrase.instruction] using hp.op.ne_nil
  · simpa [Instruction.wording, Phrase.instruction] using hp.op.solid
  · rw [Phrase.text, List.head?_append_of_ne_nil _ hp.op.ne_nil] at hhash
    simpa [Instruction.wording, Phrase.instruction] using hhash
  · cases hname : p.name? with
    | none => exact .inl (by simp [Instruction.wording, Phrase.instruction, hname])
    | some n =>
      obtain ⟨name, gap⟩ := n
      have hvalid := (hp.name _ hname).name
      have hmem : '\n' ∉ name := fun hmem => hn (by simp [Phrase.text, nameText, hname, hmem])
      right
      simp only [Instruction.wording, Phrase.instruction, hname, Option.elim_some, String.toList_ofList]
      cases hvalid with
      | plain hw hcolon hat hquote =>
        refine .inl ⟨hw.solid, fun d hd => ?_⟩
        cases hd
        exact ⟨hcolon, hat, hquote⟩
      | quoted hq hbody => exact .inr ⟨_, _, hq, rfl, hbody, fun hline => hmem (by simp [hline])⟩
  · intro type ht
    obtain ⟨part, hpart, rfl⟩ := Option.map_eq_some_iff.mp ht
    have hword := (hp.type part hpart).type
    simpa using And.intro hword.ne_nil hword.solid

/-! ## The line as a text -/

/-- The line of a valid wording starts with its operation, so it is not silent. -/
theorem render_head (h : w.Valid) :
    ∃ c cs, render w.instruction = c :: cs ∧ isBlank c = false ∧ c ≠ '#' := by
  cases hl : w.op.toList with
  | nil => exact absurd (String.toList_eq_nil_iff.mp hl) h.op_ne
  | cons c cs =>
    have hhead := h.op_head
    rw [hl] at hhead
    refine ⟨c, cs ++ renderName w.name ++ renderType w.type?
      ++ w.attributes.flatMap renderAttribute, ?_, ?_, by simpa using hhead⟩
    · simp [render, Wording.instruction, hl]
    · exact h.op_solid c (by rw [hl]; exact .head _)

theorem solidEnd_attributes (attributes : List (String × String)) (h : ∀ a ∈ attributes, IsAttribute a) :
    attributes.flatMap renderAttribute = [] ∨ SolidEnd (attributes.flatMap renderAttribute) := by
  induction attributes with
  | nil => exact Or.inl rfl
  | cons a as ih =>
    have ha : SolidEnd (renderAttribute a) := by
      have hvalue : SolidEnd ('=' :: a.2.toList) := by
        refine Solid.solidEnd (fun c hc => ?_) (by simp)
        rcases List.mem_cons.mp hc with rfl | hc
        · decide
        · exact (h a (.head _)).2.2.2 c hc
      exact SolidEnd.append_left _ hvalue
    exact Or.inr (ha.append (ih fun b hb => h b (.tail _ hb)))

theorem render_solidEnd (h : w.Valid) : SolidEnd (render w.instruction) := by
  have hop : SolidEnd w.op.toList :=
    h.op_solid.solidEnd (by simpa using h.op_ne)
  have hname : renderName w.name = [] ∨ SolidEnd (renderName w.name) := by
    unfold renderName
    split
    · exact Or.inl rfl
    · next hne =>
      have hsplit : ' ' :: w.name.toList = [' '] ++ w.name.toList := rfl
      rw [hsplit]
      refine Or.inr (SolidEnd.append_left _ ?_)
      rcases h.name with hname | ⟨hsolid, -⟩ | ⟨quote, body, hq, hlit, -, -⟩
      · exact absurd hname hne
      · exact hsolid.solidEnd (mt String.toList_eq_nil_iff.mp hne)
      · rw [hlit, ← List.cons_append]
        exact ⟨quote, List.getLast?_concat, not_blank_of_isQuote hq⟩
  have htype : renderType w.type? = [] ∨ SolidEnd (renderType w.type?) := by
    cases ht : w.type? with
    | none => exact Or.inl rfl
    | some type =>
      obtain ⟨hne, hsolid⟩ := h.type type ht
      exact Or.inr (SolidEnd.append_left _ (hsolid.solidEnd (by simpa using hne)))
  exact ((hop.append hname).append htype).append (solidEnd_attributes w.attributes h.attributes)

theorem newline_not_mem_render (h : w.Valid) : '\n' ∉ render w.instruction := by
  have hname : '\n' ∉ w.name.toList := by
    rcases h.name with hname | ⟨hsolid, -⟩ | ⟨quote, body, hq, hlit, -, hbody⟩
    · simp [hname]
    · exact hsolid.not_mem isBlank_newline
    · have hquote : '\n' ≠ quote := by
        rintro rfl
        exact absurd hq (by decide)
      simp [hlit, hquote, hbody]
  have htype : '\n' ∉ renderType w.type? := by
    cases ht : w.type? with
    | none => simp [renderType]
    | some type => simpa [renderType] using (h.type type ht).2.not_mem isBlank_newline
  have hattr : '\n' ∉ w.attributes.flatMap renderAttribute := by
    intro hmem
    obtain ⟨a, ha, hc⟩ := List.mem_flatMap.mp hmem
    obtain ⟨-, hkey, -, hvalue⟩ := h.attributes a ha
    simp [renderAttribute, hkey.not_mem isBlank_newline, hvalue.not_mem isBlank_newline] at hc
  have hop := h.op_solid.not_mem isBlank_newline
  intro hmem
  simp only [render, Wording.instruction, List.mem_append] at hmem
  rcases hmem with ((hmem | hmem) | hmem) | hmem
  · exact hop hmem
  · unfold renderName at hmem
    split at hmem
    · cases hmem
    · exact hname (by simpa using hmem)
  · exact htype hmem
  · exact hattr hmem

end Line

end LightHeaders
