import LightHeaders.Outline.Line
import LightHeaders.Proofs.Words

set_option autoImplicit false

/-! # The phrases of a line

A **phrase** is a line cut into its parts, the blanks between them included:

    op gap [name gap] [':' gap type gap] ('@' setting gap)*

A word among the parts goes on as far as it can, a literal ends with its first unescaped quote
(`Phrase.Grammatical`). The parts stand one behind the other on the line (`Phrase.text`), and the line
says what they say (`Phrase.instruction`).

* `Phrase.text_injective`: a line is cut into a phrase in one way at most;
* `parse_text`: the line of a phrase is read as what its parts say;
* `exists_phrase_of_parse`: a line that is read is the line of a phrase, so nothing on it is skipped.
-/

namespace LightHeaders

open Text

namespace Line

/-! ## Literals -/

/-- What may stand between two quotes: a backslash takes the next character with it, and no other
`quote` comes. -/
inductive Quoted (quote : Char) : List Char → Prop
  | nil : Quoted quote []
  | escape (c : Char) {cs : List Char} : Quoted quote cs → Quoted quote ('\\' :: c :: cs)
  | char {c : Char} {cs : List Char} :
      c ≠ quote → c ≠ '\\' → Quoted quote cs → Quoted quote (c :: cs)

variable {quote sep : Char} {back cs front rest : List Char}

theorem ne_backslash_of_isQuote (h : isQuote quote = true) : quote ≠ '\\' := by
  rintro rfl
  revert h
  decide

theorem not_blank_of_isQuote (h : isQuote quote = true) :
    isBlank quote = false := by
  simp only [isQuote, Bool.or_eq_true, decide_eq_true_eq] at h
  rcases h with rfl | rfl <;> decide

theorem closeQuote?_cons {c : Char} (h : c ≠ '\\') (cs : List Char) :
    closeQuote? quote (c :: cs) =
      if c = quote then some ([c], cs)
      else (closeQuote? quote cs).map fun (front, back) => (c :: front, back) := by
  cases cs with
  | nil => simp [closeQuote?]
  | cons d ds => rw [closeQuote?]; simp [h]

theorem closeQuote?_append (hq : isQuote quote = true) {body : List Char} (h : Quoted quote body)
    (rest : List Char) :
    closeQuote? quote (body ++ quote :: rest) = some (body ++ [quote], rest) := by
  induction h with
  | nil => rw [List.nil_append, closeQuote?_cons (ne_backslash_of_isQuote hq), if_pos rfl]; rfl
  | escape c _ ih =>
    rw [List.cons_append, List.cons_append, closeQuote?, ih]
    rfl
  | char hne hback _ ih =>
    rw [List.cons_append, closeQuote?_cons hback, if_neg hne, ih]
    rfl

theorem quoted_of_closeQuote? (h : closeQuote? quote cs = some (front, back)) :
    ∃ body, front = body ++ [quote] ∧ Quoted quote body ∧ cs = front ++ back := by
  induction cs using closeQuote?.induct quote generalizing front back with
  | case1 => simp [closeQuote?] at h
  | case2 c cs ih =>
    rw [closeQuote?] at h
    obtain ⟨⟨front', back'⟩, hcs, heq⟩ := Option.map_eq_some_iff.mp h
    cases heq
    obtain ⟨body, rfl, hbody, rfl⟩ := ih hcs
    exact ⟨'\\' :: c :: body, rfl, hbody.escape c, rfl⟩
  | case3 cs hno =>
    rw [closeQuote?, if_pos rfl] at h
    · cases h
      exact ⟨[], rfl, .nil, rfl⟩
    · exact hno
  | case4 c cs hno hc ih =>
    rw [closeQuote?, if_neg hc] at h
    · obtain ⟨⟨front', back'⟩, hcs, heq⟩ := Option.map_eq_some_iff.mp h
      cases heq
      obtain ⟨body, rfl, hbody, rfl⟩ := ih hcs
      refine ⟨c :: body, rfl, hbody.char hc ?_, rfl⟩
      -- a backslash here is followed by something, since a closing quote comes behind it
      rintro rfl
      cases body with
      | nil => exact hno quote back rfl rfl
      | cons d ds => exact hno d (ds ++ [quote] ++ back) rfl rfl
    · exact hno

/-! ## Texts cut at a character -/

theorem cutFirst?_eq_some
    (h : cutFirst? sep cs = some (front, back)) : sep ∉ front ∧ cs = front ++ sep :: back := by
  induction cs generalizing front back with
  | nil => simp [cutFirst?] at h
  | cons c cs ih =>
    rw [cutFirst?] at h
    by_cases hc : c = sep
    · rw [if_pos hc] at h
      cases h
      exact ⟨by simp, by rw [hc]; rfl⟩
    · rw [if_neg hc] at h
      obtain ⟨⟨front', back'⟩, hcs, heq⟩ := Option.map_eq_some_iff.mp h
      cases heq
      obtain ⟨hfront, rfl⟩ := ih hcs
      exact ⟨by simp [Ne.symm hc, hfront], rfl⟩

theorem cutFirst?_eq_none (h : cutFirst? sep cs = none) :
    sep ∉ cs := by
  induction cs with
  | nil => simp
  | cons c cs ih =>
    rw [cutFirst?] at h
    by_cases hc : c = sep
    · rw [if_pos hc] at h
      cases h
    · rw [if_neg hc, Option.map_eq_none_iff] at h
      simp [Ne.symm hc, ih h]

theorem cutFirst?_append (h : sep ∉ front) (back : List Char) :
    cutFirst? sep (front ++ sep :: back) = some (front, back) := by
  induction front with
  | nil => simp [cutFirst?]
  | cons c front ih =>
    rw [List.mem_cons, not_or] at h
    rw [List.cons_append, cutFirst?, if_neg (Ne.symm h.1), ih h.2]
    rfl

/-! ## Phrases -/

/-- A run of blanks, which may be empty. -/
def Gap (cs : List Char) : Prop := ∀ c ∈ cs, isBlank c = true

/-- A word that goes on as far as it can: a blank or the end of the line follows. -/
structure IsWord (w rest : List Char) : Prop where
  ne_nil : w ≠ []
  solid : Solid w
  ends : Parted rest

/-- A setting, without the `@` before it, and the blanks behind it. -/
structure Setting where
  key : List Char
  /-- What stands behind the first `=`, if there is one. -/
  value? : Option (List Char)
  gap : List Char

/-- A name and the blanks behind it. -/
structure NamePart where
  name : List Char
  gap : List Char

/-- A type, the blanks between the colon and it, and those behind it. -/
structure TypePart where
  colonGap : List Char
  type : List Char
  gap : List Char

/-- The parts of a line. -/
structure Phrase where
  op : List Char
  gap : List Char
  name? : Option NamePart
  type? : Option TypePart
  settings : List Setting

/-! ### What stands on the line -/

/-- A setting as one word. -/
def Setting.word (s : Setting) : List Char := s.key ++ s.value?.elim [] ('=' :: ·)

/-- Settings, one behind the other. -/
def settingsText : List Setting → List Char
  | [] => []
  | s :: ss => '@' :: (s.word ++ (s.gap ++ settingsText ss))

/-- A type, if there is one, and what follows it. -/
def typeText (rest : List Char) : Option TypePart → List Char
  | none => rest
  | some t => ':' :: (t.colonGap ++ (t.type ++ (t.gap ++ rest)))

/-- A name, if there is one, and what follows it. -/
def nameText (rest : List Char) : Option NamePart → List Char
  | none => rest
  | some n => n.name ++ (n.gap ++ rest)

/-- What follows the name of a phrase. -/
def Phrase.tail (p : Phrase) : List Char := typeText (settingsText p.settings) p.type?

/-- The line of a phrase. -/
def Phrase.text (p : Phrase) : List Char := p.op ++ (p.gap ++ nameText p.tail p.name?)

/-! ### What may stand there -/

/-- A name before `rest`: a word that starts neither a type nor a setting nor a literal, or a literal,
which nothing needs to part from what follows. -/
inductive IsName (rest : List Char) : List Char → Prop
  | plain {c : Char} {cs : List Char} : IsWord (c :: cs) rest → c ≠ ':' → c ≠ '@' →
      isQuote c = false → IsName rest (c :: cs)
  | quoted {quote : Char} {body : List Char} : isQuote quote = true → Quoted quote body →
      IsName rest (quote :: (body ++ [quote]))

structure NamePart.Valid (rest : List Char) (n : NamePart) : Prop where
  name : IsName (n.gap ++ rest) n.name
  gap : Gap n.gap

structure TypePart.Valid (rest : List Char) (t : TypePart) : Prop where
  colonGap : Gap t.colonGap
  type : IsWord t.type (t.gap ++ rest)
  gap : Gap t.gap

/-- A setting has something before its first `=`. -/
structure Setting.Valid (rest : List Char) (s : Setting) : Prop where
  key_ne : s.key ≠ []
  key_eq : '=' ∉ s.key
  word : IsWord s.word (s.gap ++ rest)
  gap : Gap s.gap

def SettingsValid : List Setting → Prop
  | [] => True
  | s :: ss => s.Valid (settingsText ss) ∧ SettingsValid ss

/-- Each part is what it should be before what follows it. -/
structure Phrase.Grammatical (p : Phrase) : Prop where
  op : IsWord p.op (p.gap ++ nameText p.tail p.name?)
  gap : Gap p.gap
  name : ∀ n, p.name? = some n → n.Valid p.tail
  type : ∀ t, p.type? = some t → t.Valid (settingsText p.settings)
  settings : SettingsValid p.settings

/-! ### What the line says -/

/-- The key and the value of a setting, which is `true` if none is given. -/
def Setting.entry (s : Setting) : String × String :=
  (String.ofList s.key, String.ofList (s.value?.getD "true".toList))

/-- The instruction that the parts of a line spell out. -/
def Phrase.instruction (p : Phrase) : Instruction where
  op := String.ofList p.op
  name := String.ofList (p.name?.elim [] NamePart.name)
  type? := p.type?.map fun t => String.ofList t.type
  attributes := p.settings.map Setting.entry

/-! ## Gaps and words -/

theorem gap_takeWhile (cs : List Char) : Gap (cs.takeWhile isBlank) := by
  intro c hc
  exact List.all_eq_true.mp List.all_takeWhile c hc

theorem takeWhile_append_trimStart (cs : List Char) :
    cs.takeWhile isBlank ++ trimStart cs = cs :=
  List.takeWhile_append_dropWhile

variable {i : Instruction} {gap name rest' tail w : List Char} {ss ss' : List Setting} {bound : Nat}
  {name? : Option NamePart} {type? : Option TypePart} {p : Phrase} {s : Setting}

theorem Gap.trimStart_append (h : Gap gap) (hr : Flush rest) :
    trimStart (gap ++ rest) = rest := by
  rw [trimStart, List.dropWhile_append_of_pos h]
  exact trimStart_of_flush hr

/-- Blanks before something else are told from it. -/
theorem Gap.append_inj {gap' : List Char} (h : Gap gap) (h' : Gap gap') (hr : Flush rest) (hr' : Flush rest')
    (heq : gap ++ rest = gap' ++ rest') :
    gap = gap' ∧ rest = rest' := by
  have hrest : rest = rest' := by
    rw [← h.trimStart_append hr, heq, h'.trimStart_append hr']
  rw [hrest] at heq
  exact ⟨List.append_cancel_right heq, hrest⟩

/-- Words that go on as far as they can are told from what follows. -/
theorem IsWord.append_inj {w' : List Char} (h : IsWord w rest) (h' : IsWord w' rest')
    (heq : w ++ rest = w' ++ rest') : w = w' ∧ rest = rest' := by
  constructor
  · rw [← word_append h.solid h.ends, heq, word_append h'.solid h'.ends]
  · rw [← afterWord_append h.solid h.ends, heq, afterWord_append h'.solid h'.ends]

theorem IsWord.flush (h : IsWord w rest) (more : List Char) :
    Flush (w ++ more) := by
  obtain ⟨c, cs, rfl⟩ := List.exists_cons_of_ne_nil h.ne_nil
  exact Flush.cons (h.solid c (.head _)) _

theorem afterWord_parted (cs : List Char) : Parted (afterWord cs) := by
  intro c hc
  have h := List.head?_dropWhile_not (!isBlank ·) cs
  rw [show cs.dropWhile (!isBlank ·) = afterWord cs from rfl, hc] at h
  simpa using h

theorem isWord_word (h : word cs ≠ []) : IsWord (word cs) (afterWord cs) :=
  ⟨h, word_solid cs, afterWord_parted cs⟩

/-! ## Settings -/

theorem settingsText_head (ss : List Setting) :
    ∀ c, (settingsText ss).head? = some c → c = '@' := by
  intro c hc
  cases ss with
  | nil => cases hc
  | cons s ss =>
    cases hc
    rfl

theorem settingsText_flush (ss : List Setting) : Flush (settingsText ss) := by
  intro c hc
  rw [settingsText_head ss c hc]
  decide

theorem Setting.splitAttribute_word (h : '=' ∉ s.key) :
    splitAttribute s.word = (s.key, s.value?.getD "true".toList) := by
  cases hv : s.value? with
  | none =>
    have hcut : cutFirst? '=' s.key = none := by
      cases hcut : cutFirst? '=' s.key with
      | none => rfl
      | some parts =>
        obtain ⟨front, back⟩ := parts
        rw [(cutFirst?_eq_some hcut).2] at h
        simp at h
    rw [Setting.word, hv, Option.elim_none, List.append_nil, splitAttribute, hcut]
    rfl
  | some value =>
    rw [Setting.word, hv, Option.elim_some, splitAttribute, cutFirst?_append h]
    rfl

theorem Setting.word_injective {s' : Setting} (h : '=' ∉ s.key) (h' : '=' ∉ s'.key)
    (heq : s.word = s'.word) : s.key = s'.key ∧ s.value? = s'.value? := by
  have hkey : s.key = s'.key := by
    have hsplit := congrArg splitAttribute heq
    rw [Setting.splitAttribute_word h, Setting.splitAttribute_word h'] at hsplit
    exact congrArg Prod.fst hsplit
  refine ⟨hkey, ?_⟩
  rw [Setting.word, Setting.word, hkey] at heq
  have hvalue := List.append_cancel_left heq
  cases hv : s.value? with
  | none =>
    cases hv' : s'.value? with
    | none => rfl
    | some value =>
      rw [hv, hv'] at hvalue
      cases hvalue
  | some value =>
    cases hv' : s'.value? with
    | none =>
      rw [hv, hv'] at hvalue
      cases hvalue
    | some value' =>
      rw [hv, hv'] at hvalue
      cases hvalue
      rfl

/-- What a word behind `@` is cut into, if it does not start with `=`. -/
theorem exists_setting (cs gap : List Char) (hkey : (splitAttribute cs).1 ≠ []) :
    ∃ s : Setting, s.gap = gap ∧ s.word = cs ∧ s.key ≠ [] ∧ '=' ∉ s.key := by
  rw [splitAttribute] at hkey
  cases hcut : cutFirst? '=' cs with
  | none =>
    rw [hcut] at hkey
    exact ⟨⟨cs, none, gap⟩, rfl, by simp [Setting.word], hkey, cutFirst?_eq_none hcut⟩
  | some parts =>
    obtain ⟨front, back⟩ := parts
    rw [hcut] at hkey
    obtain ⟨hfront, hcs⟩ := cutFirst?_eq_some hcut
    exact ⟨⟨front, some back, gap⟩, rfl, hcs.symm, hkey, hfront⟩

theorem length_le_settingsText (ss : List Setting) : ss.length ≤ (settingsText ss).length := by
  induction ss with
  | nil => exact le_rfl
  | cons s ss ih =>
    rw [settingsText]
    simp only [List.length_cons, List.length_append]
    omega

theorem parseAttributes_settingsText (h : SettingsValid ss) (hb : ss.length ≤ bound) :
    parseAttributes bound (settingsText ss) = .ok (ss.map Setting.entry) := by
  induction ss generalizing bound with
  | nil => cases bound <;> rfl
  | cons s ss ih =>
    obtain ⟨hs, hss⟩ := h
    cases bound with
    | zero => exact absurd hb (Nat.not_succ_le_zero _)
    | succ bound =>
      rw [settingsText, parseAttributes, word_append hs.word.solid hs.word.ends,
        afterWord_append hs.word.solid hs.word.ends, Setting.splitAttribute_word hs.key_eq,
        hs.gap.trimStart_append (settingsText_flush ss)]
      simp only [if_neg hs.key_ne]
      rw [ih hss (Nat.le_of_succ_le_succ hb)]
      rfl

theorem exists_settings_of_parseAttributes {attributes : List (String × String)}
    (h : parseAttributes bound cs = .ok attributes) :
    ∃ ss, SettingsValid ss ∧ settingsText ss = cs ∧ ss.map Setting.entry = attributes := by
  induction bound, cs using parseAttributes.induct generalizing attributes with
  | case1 bound =>
    simp only [parseAttributes, Except.ok.injEq] at h
    exact ⟨[], trivial, rfl, h⟩
  | case2 bound rest value hsplit =>
    rw [parseAttributes, hsplit] at h
    cases h
  | case3 bound rest key value hsplit hkey ih =>
    rw [parseAttributes, hsplit] at h
    simp only [if_neg hkey] at h
    cases hothers : parseAttributes bound (trimStart (afterWord rest)) with
    | error fault =>
      rw [hothers] at h
      cases h
    | ok others =>
      rw [hothers] at h
      cases h
      obtain ⟨ss, hss, htext, rfl⟩ := ih hothers
      obtain ⟨s, hgap, hword, hne, heq⟩ := exists_setting (word rest)
        ((afterWord rest).takeWhile isBlank) (by rw [hsplit]; exact hkey)
      have hrest : s.gap ++ settingsText ss = afterWord rest := by
        rw [hgap, htext, takeWhile_append_trimStart]
      have hentry : s.entry = (String.ofList key, String.ofList value) := by
        have hcut := Setting.splitAttribute_word heq
        rw [hword, hsplit] at hcut
        cases hcut
        rfl
      have hnonempty : word rest ≠ [] := by
        rw [← hword, Setting.word]
        exact fun hnil => hne (List.append_eq_nil_iff.mp hnil).1
      refine ⟨s :: ss, ⟨⟨hne, heq, ?_, hgap ▸ gap_takeWhile _⟩, hss⟩, ?_, ?_⟩
      · rw [hword, hrest]
        exact isWord_word hnonempty
      · rw [settingsText, hword, hrest, word_append_afterWord]
      · rw [List.map_cons, hentry]
  | case4 bound rest hnil hat =>
    rw [parseAttributes] at h
    · cases h
    · exact hnil
    · exact hat

theorem settingsText_injective (h : SettingsValid ss) (h' : SettingsValid ss')
    (heq : settingsText ss = settingsText ss') : ss = ss' := by
  induction ss generalizing ss' with
  | nil =>
    cases ss' with
    | nil => rfl
    | cons s' ss' => cases heq
  | cons s ss ih =>
    cases ss' with
    | nil => cases heq
    | cons s' ss' =>
      obtain ⟨hword, hrest⟩ := h.1.word.append_inj h'.1.word (List.cons.inj heq).2
      obtain ⟨hgap, hmore⟩ := h.1.gap.append_inj h'.1.gap (settingsText_flush ss)
        (settingsText_flush ss') hrest
      obtain ⟨hkey, hvalue⟩ := Setting.word_injective h.1.key_eq h'.1.key_eq hword
      have hs : s = s' := by
        cases s
        cases s'
        simp only [Setting.mk.injEq]
        exact ⟨hkey, hvalue, hgap⟩
      rw [hs, ih h.2 h'.2 hmore]

/-! ## Types -/

theorem typeText_head (type? : Option TypePart) (ss : List Setting) :
    ∀ c, (typeText (settingsText ss) type?).head? = some c → c = ':' ∨ c = '@' := by
  intro c hc
  cases type? with
  | none => exact .inr (settingsText_head ss c hc)
  | some t =>
    cases hc
    exact .inl rfl

theorem flush_of_mark (h : ∀ c, cs.head? = some c → c = ':' ∨ c = '@') :
    Flush cs := by
  intro c hc
  rcases h c hc with rfl | rfl <;> decide

theorem parseType_typeText (h : ∀ t, type? = some t → t.Valid (settingsText ss)) :
    parseType (typeText (settingsText ss) type?) = .ok (type?.map TypePart.type, settingsText ss) := by
  cases type? with
  | none =>
    rw [typeText]
    cases ss with
    | nil | cons => rfl
  | some t =>
    have ht := h t rfl
    rw [typeText, parseType]
    simp only [ht.colonGap.trimStart_append (ht.type.flush _),
      word_append ht.type.solid ht.type.ends, afterWord_append ht.type.solid ht.type.ends,
      if_neg ht.type.ne_nil, ht.gap.trimStart_append (settingsText_flush ss), Option.map_some]

theorem exists_type_of_parseType {type? : Option (List Char)} (h : parseType cs = .ok (type?, rest)) :
    ∃ part? : Option TypePart, typeText rest part? = cs ∧ part?.map TypePart.type = type? ∧
      ∀ t, part? = some t → t.Valid rest := by
  unfold parseType at h
  split at h
  · next cs =>
    dsimp only at h
    split at h
    · cases h
    · next hne =>
      cases h
      have hgap : (afterWord (trimStart cs)).takeWhile isBlank
          ++ trimStart (afterWord (trimStart cs)) = afterWord (trimStart cs) :=
        takeWhile_append_trimStart _
      refine ⟨some ⟨cs.takeWhile isBlank, word (trimStart cs),
        (afterWord (trimStart cs)).takeWhile isBlank⟩, ?_, rfl, ?_⟩
      · simp only [typeText]
        rw [hgap, word_append_afterWord, takeWhile_append_trimStart]
      · intro t ht
        cases ht
        refine ⟨gap_takeWhile _, ?_, gap_takeWhile _⟩
        rw [hgap]
        exact isWord_word hne
  · cases h
    refine ⟨none, rfl, rfl, ?_⟩
    rintro t ⟨⟩

theorem typeText_injective {type?' : Option TypePart} (h : ∀ t, type? = some t → t.Valid (settingsText ss))
    (h' : ∀ t, type?' = some t → t.Valid (settingsText ss'))
    (heq : typeText (settingsText ss) type? = typeText (settingsText ss') type?') :
    type? = type?' ∧ settingsText ss = settingsText ss' := by
  -- settings never start with a colon
  have hcolon : ∀ (ss : List Setting) (cs : List Char), settingsText ss ≠ ':' :: cs := by
    intro ss cs hcs
    exact absurd (settingsText_head ss ':' (by rw [hcs]; rfl)) (by decide)
  cases type? with
  | none =>
    cases type?' with
    | none => exact ⟨rfl, heq⟩
    | some t' => exact absurd heq (hcolon ss _)
  | some t =>
    cases type?' with
    | none => exact absurd heq.symm (hcolon ss' _)
    | some t' =>
      have ht := h t rfl
      have ht' := h' t' rfl
      obtain ⟨hcolonGap, hrest⟩ := ht.colonGap.append_inj ht'.colonGap (ht.type.flush _)
        (ht'.type.flush _) (List.cons.inj heq).2
      obtain ⟨htype, hrest⟩ := ht.type.append_inj ht'.type hrest
      obtain ⟨hgap, hrest⟩ := ht.gap.append_inj ht'.gap (settingsText_flush ss)
        (settingsText_flush ss') hrest
      refine ⟨?_, hrest⟩
      cases t
      cases t'
      simp only [Option.some.injEq, TypePart.mk.injEq]
      exact ⟨hcolonGap, htype, hgap⟩

/-! ## Names -/

theorem IsName.head (h : IsName rest name) :
    ∃ c cs, name = c :: cs ∧ isBlank c = false ∧ c ≠ ':' ∧ c ≠ '@' := by
  cases h with
  | plain hw hcolon hat hquote =>
    exact ⟨_, _, rfl, hw.solid _ (.head _), hcolon, hat⟩
  | quoted hq hbody =>
    refine ⟨_, _, rfl, not_blank_of_isQuote hq, ?_, ?_⟩
    · rintro rfl
      exact absurd hq (by decide)
    · rintro rfl
      exact absurd hq (by decide)

theorem parseName_of_mark (h : ∀ c, cs.head? = some c → c = ':' ∨ c = '@') :
    parseName cs = .ok ([], cs) := by
  cases cs with
  | nil => rfl
  | cons c cs =>
    have hc : isQuote c = false ∧ (c = ':' || c = '@') = true := by
      rcases h c rfl with rfl | rfl <;> decide
    rw [parseName]
    simp only [hc.1, hc.2, Bool.false_eq_true, if_false, if_true]

theorem IsName.parseName (h : IsName rest name) :
    Line.parseName (name ++ rest) = .ok (name, rest) := by
  cases h with
  | plain hw hcolon hat hquote =>
    rw [List.cons_append, Line.parseName]
    simp only [hquote, hcolon, hat, decide_false, Bool.or_self, Bool.false_eq_true, if_false]
    rw [← List.cons_append, word_append hw.solid hw.ends, afterWord_append hw.solid hw.ends]
  | quoted hq hbody =>
    have hclose := closeQuote?_append hq hbody rest
    rw [List.cons_append, Line.parseName]
    simp only [hq, if_true, List.append_assoc, List.cons_append, List.nil_append, hclose]

/-- Names are told from what follows: each is read up to where it ends. -/
theorem IsName.append_inj {name' : List Char} (h : IsName rest name) (h' : IsName rest' name')
    (heq : name ++ rest = name' ++ rest') : name = name' ∧ rest = rest' := by
  have hread := h.parseName
  rw [heq, h'.parseName] at hread
  cases hread
  exact ⟨rfl, rfl⟩

theorem isName_of_parseName (hf : Flush cs) (h : parseName cs = .ok (name, rest)) :
    (name = [] ∧ rest = cs ∧ ∀ c, cs.head? = some c → c = ':' ∨ c = '@') ∨
      (IsName rest name ∧ name ++ rest = cs) := by
  cases cs with
  | nil =>
    cases h
    refine .inl ⟨rfl, rfl, ?_⟩
    rintro c ⟨⟩
  | cons c cs =>
    rw [parseName] at h
    by_cases hq : isQuote c = true
    · rw [if_pos hq] at h
      split at h
      · next front back hclose =>
        cases h
        obtain ⟨body, rfl, hbody, rfl⟩ := quoted_of_closeQuote? hclose
        exact .inr ⟨.quoted hq hbody, rfl⟩
      · cases h
    · rw [if_neg hq] at h
      split at h
      · next hmark =>
        cases h
        refine .inl ⟨rfl, rfl, fun d hd => ?_⟩
        cases hd
        simpa using hmark
      · next hmark =>
        cases h
        have hc : isBlank c = false := hf c rfl
        have hword : word (c :: cs) = c :: word cs := word_cons hc cs
        simp only [Bool.or_eq_true, decide_eq_true_eq, not_or] at hmark
        refine .inr ⟨?_, word_append_afterWord _⟩
        have hmax : IsWord (word (c :: cs)) (afterWord (c :: cs)) :=
          isWord_word (by rw [hword]; exact List.cons_ne_nil _ _)
        rw [hword] at hmax ⊢
        exact .plain hmax hmark.1 hmark.2 (Bool.not_eq_true _ ▸ hq)

theorem nameText_flush (hm : ∀ c, tail.head? = some c → c = ':' ∨ c = '@')
    (h : ∀ n, name? = some n → n.Valid tail) : Flush (nameText tail name?) := by
  cases name? with
  | none => exact flush_of_mark hm
  | some n =>
    obtain ⟨c, cs, hname, hc, -, -⟩ := (h n rfl).name.head
    rw [nameText, hname]
    exact Flush.cons hc _

theorem parseName_nameText (hm : ∀ c, tail.head? = some c → c = ':' ∨ c = '@')
    (h : ∀ n, name? = some n → n.Valid tail) :
    ∃ rest, parseName (nameText tail name?) = .ok (name?.elim [] NamePart.name, rest) ∧
      trimStart rest = tail := by
  cases name? with
  | none => exact ⟨tail, parseName_of_mark hm, trimStart_of_flush (flush_of_mark hm)⟩
  | some n =>
    have hn := h n rfl
    exact ⟨n.gap ++ tail, hn.name.parseName, hn.gap.trimStart_append (flush_of_mark hm)⟩

theorem exists_name_of_parseName (hf : Flush cs) (h : parseName cs = .ok (name, rest)) :
    ∃ part? : Option NamePart, nameText (trimStart rest) part? = cs ∧
      part?.elim [] NamePart.name = name ∧ ∀ n, part? = some n → n.Valid (trimStart rest) := by
  rcases isName_of_parseName hf h with ⟨rfl, rfl, -⟩ | ⟨hname, rfl⟩
  · refine ⟨none, trimStart_of_flush hf, rfl, ?_⟩
    rintro n ⟨⟩
  · refine ⟨some ⟨name, rest.takeWhile isBlank⟩, ?_, rfl, ?_⟩
    · simp only [nameText]
      rw [takeWhile_append_trimStart]
    · intro n hn
      cases hn
      refine ⟨?_, gap_takeWhile _⟩
      rw [takeWhile_append_trimStart]
      exact hname

theorem nameText_injective {name?' : Option NamePart} {tail' : List Char}
    (hm : ∀ c, tail.head? = some c → c = ':' ∨ c = '@') (hm' : ∀ c, tail'.head? = some c → c = ':' ∨ c = '@')
    (h : ∀ n, name? = some n → n.Valid tail) (h' : ∀ n, name?' = some n → n.Valid tail')
    (heq : nameText tail name? = nameText tail' name?') : name? = name?' ∧ tail = tail' := by
  -- what starts with a mark is no name
  have hmark : ∀ {tail rest name : List Char}, (∀ c, tail.head? = some c → c = ':' ∨ c = '@') →
      IsName rest name → tail ≠ name ++ rest := by
    rintro tail rest name hm hname rfl
    obtain ⟨c, cs, rfl, -, hcolon, hat⟩ := hname.head
    rcases hm c rfl with hc | hc
    · exact hcolon hc
    · exact hat hc
  cases name? with
  | none =>
    cases name?' with
    | none => exact ⟨rfl, heq⟩
    | some n' => exact absurd heq (hmark hm (h' n' rfl).name)
  | some n =>
    cases name?' with
    | none => exact absurd heq.symm (hmark hm' (h n rfl).name)
    | some n' =>
      obtain ⟨hname, hrest⟩ := (h n rfl).name.append_inj (h' n' rfl).name heq
      obtain ⟨hgap, htail⟩ := (h n rfl).gap.append_inj (h' n' rfl).gap (flush_of_mark hm)
        (flush_of_mark hm') hrest
      refine ⟨?_, htail⟩
      cases n
      cases n'
      simp only [Option.some.injEq, NamePart.mk.injEq]
      exact ⟨hname, hgap⟩

/-! ## Lines -/

theorem Phrase.tail_head (p : Phrase) : ∀ c, p.tail.head? = some c → c = ':' ∨ c = '@' :=
  typeText_head p.type? p.settings

/-- **A line is cut into a phrase in one way at most.** -/
theorem Phrase.text_injective {q : Phrase} (hp : p.Grammatical) (hq : q.Grammatical)
    (heq : p.text = q.text) : p = q := by
  obtain ⟨hop, hrest⟩ := hp.op.append_inj hq.op heq
  obtain ⟨hgap, hrest⟩ := hp.gap.append_inj hq.gap (nameText_flush p.tail_head hp.name)
    (nameText_flush q.tail_head hq.name) hrest
  obtain ⟨hname, htail⟩ := nameText_injective p.tail_head q.tail_head hp.name hq.name hrest
  obtain ⟨htype, hsettings⟩ := typeText_injective hp.type hq.type htail
  have hlist := settingsText_injective hp.settings hq.settings hsettings
  cases p
  cases q
  simp only [Phrase.mk.injEq]
  exact ⟨hop, hgap, hname, htype, hlist⟩

/-- **The line of a phrase is read as what its parts say.** -/
theorem parse_text (h : p.Grammatical) : parse p.text = .ok p.instruction := by
  have hflush := nameText_flush p.tail_head h.name
  obtain ⟨rest, hname, hrest⟩ := parseName_nameText p.tail_head h.name
  rw [parse, Phrase.text, word_append h.op.solid h.op.ends, afterWord_append h.op.solid h.op.ends,
    h.gap.trimStart_append hflush, hname]
  simp only [bind, Except.bind]
  rw [hrest, Phrase.tail, parseType_typeText h.type]
  simp only
  rw [parseAttributes_settingsText h.settings (length_le_settingsText _), Option.map_map]
  rfl

theorem exists_of_parse (h : parse cs = .ok i) :
    ∃ name rest type? rest' attributes, parseName (trimStart (afterWord cs)) = .ok (name, rest) ∧
      parseType (trimStart rest) = .ok (type?, rest') ∧
      parseAttributes rest'.length rest' = .ok attributes ∧
      i = { op := String.ofList (word cs), name := String.ofList name,
            type? := type?.map String.ofList, attributes } := by
  unfold parse at h
  cases hname : parseName (trimStart (afterWord cs)) with
  | error fault => rw [hname] at h; cases h
  | ok name =>
    obtain ⟨name, rest⟩ := name
    rw [hname] at h
    simp only [bind, Except.bind] at h
    cases htype : parseType (trimStart rest) with
    | error fault => rw [htype] at h; cases h
    | ok type =>
      obtain ⟨type?, rest'⟩ := type
      rw [htype] at h
      simp only at h
      cases hattr : parseAttributes rest'.length rest' with
      | error fault => rw [hattr] at h; cases h
      | ok attributes =>
        rw [hattr] at h
        cases h
        exact ⟨name, rest, type?, rest', attributes, rfl, htype, hattr, rfl⟩

/-- **A line that is read is the line of a phrase.** -/
theorem exists_phrase_of_parse (hf : Flush cs) (hne : cs ≠ [])
    (h : parse cs = .ok i) : ∃ p : Phrase, p.Grammatical ∧ p.text = cs ∧ p.instruction = i := by
  obtain ⟨name, rest, type?, rest', attributes, hname, htype, hattr, rfl⟩ := exists_of_parse h
  -- from the end of the line to its start: each part is cut before what is known to follow
  obtain ⟨ss, hss, rfl, rfl⟩ := exists_settings_of_parseAttributes hattr
  obtain ⟨type?, htail, rfl, hvalid⟩ := exists_type_of_parseType htype
  obtain ⟨name?, htext, rfl, hnames⟩ := exists_name_of_parseName (trimStart_flush _) hname
  rw [← htail] at htext hnames
  have hgap : (afterWord cs).takeWhile isBlank
      ++ nameText (typeText (settingsText ss) type?) name? = afterWord cs := by
    rw [htext, takeWhile_append_trimStart]
  have hword : word cs ≠ [] := by
    obtain ⟨c, cs, rfl⟩ := List.exists_cons_of_ne_nil hne
    rw [word_cons (hf c rfl)]
    exact List.cons_ne_nil _ _
  refine ⟨⟨word cs, (afterWord cs).takeWhile isBlank, name?, type?, ss⟩,
    ⟨?_, gap_takeWhile _, hnames, hvalid, hss⟩, ?_, ?_⟩
  · show IsWord _ ((afterWord cs).takeWhile isBlank
      ++ nameText (typeText (settingsText ss) type?) name?)
    rw [hgap]
    exact isWord_word hword
  · show word cs ++ ((afterWord cs).takeWhile isBlank
      ++ nameText (typeText (settingsText ss) type?) name?) = cs
    rw [hgap, word_append_afterWord]
  · rw [Phrase.instruction, Option.map_map]
    rfl

/-- A line is read if it is the line of a phrase, and not otherwise. -/
theorem parse_eq_ok_iff (hf : Flush cs) (hne : cs ≠ []) :
    parse cs = .ok i ↔ ∃ p : Phrase, p.Grammatical ∧ p.text = cs ∧ p.instruction = i := by
  refine ⟨exists_phrase_of_parse hf hne, ?_⟩
  rintro ⟨p, hp, rfl, rfl⟩
  exact parse_text hp

theorem parse_eq_error_iff (hf : Flush cs) (hne : cs ≠ []) :
    (∃ fault, parse cs = .error fault) ↔ ∀ p : Phrase, p.Grammatical → p.text ≠ cs := by
  constructor
  · rintro ⟨fault, hfault⟩ p hp rfl
    rw [parse_text hp] at hfault
    cases hfault
  · intro hnone
    cases h : parse cs with
    | error fault => exact ⟨fault, rfl⟩
    | ok i =>
      obtain ⟨p, hp, htext, -⟩ := exists_phrase_of_parse hf hne h
      exact absurd htext (hnone p hp)

/-- **Exactly the lines of phrases are read.** A line that is not empty and starts with no blank is read
as an instruction exactly if it is cut into a phrase that spells the instruction out; it is cut in one
way at most; and it is an error exactly if it cannot be cut. -/
theorem parse_by_phrase {cs : List Char} (hf : Flush cs) (hne : cs ≠ []) :
    (∀ i, parse cs = .ok i ↔ ∃ p : Phrase, p.Grammatical ∧ p.text = cs ∧ p.instruction = i) ∧
    (∀ p q : Phrase, p.Grammatical → q.Grammatical → p.text = cs → q.text = cs → p = q) ∧
    ((∃ fault, parse cs = .error fault) ↔ ∀ p : Phrase, p.Grammatical → p.text ≠ cs) :=
  ⟨fun _ => parse_eq_ok_iff hf hne,
    fun _ _ hp hq hcs hcs' => Phrase.text_injective hp hq (hcs.trans hcs'.symm),
    parse_eq_error_iff hf hne⟩

/-- A literal with an escaped quote and a colon right behind it, a type that looks like a setting, a
setting with two marks and two `=` and one without a value; and a literal with a word right behind it. -/
theorem parse_by_phrase_marks :
    let line := "call \"a \\\" b\":@x  @@k=v=w @l".toList
    let wrong := "call \"a\"b".toList
    (Flush line ∧ line ≠ [] ∧ ∃ p : Phrase, p.Grammatical ∧ p.text = line ∧
      p.instruction = { op := "call", name := "\"a \\\" b\"", type? := some "@x",
                        attributes := [("@k", "v=w"), ("l", "true")] }) ∧
    Flush wrong ∧ wrong ≠ [] ∧ ∀ p : Phrase, p.Grammatical → p.text ≠ wrong := by
  intro line wrong
  have hline : Flush line := Flush.cons (by decide) _
  have hwrong : Flush wrong := Flush.cons (by decide) _
  refine ⟨⟨hline, by decide, ?_⟩, hwrong, by decide, ?_⟩
  · exact ((parse_by_phrase hline (by decide)).1 _).mp (by decide)
  · exact (parse_by_phrase hwrong (by decide)).2.2.mp ⟨.unexpected "b", by decide⟩

end Line

end LightHeaders
