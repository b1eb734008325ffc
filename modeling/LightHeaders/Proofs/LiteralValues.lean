import LightHeaders.Proofs.Literals
import Mathlib.Algebra.Order.Floor.Ring
import Mathlib.Data.Nat.Digits.Defs
import Mathlib.Data.Rat.Floor
import Mathlib.Tactic.FieldSimp
import Mathlib.Tactic.Linarith
import Mathlib.Tactic.Positivity

set_option autoImplicit false

/-! # The values of literals

A whole number, a float and a truth value have a **value**, a rational number (`Literal.Denotes`): the
decimal number that is spelled out, with truth as one. A text of one of these kinds has exactly one value
(`Literal.exists_denotes`, `Literal.Denotes.unique`).

Writing a literal anew keeps its value as far as the kind allows (`Literal.recast_value`): a float has the
same value, a whole number has it rounded toward zero, and a truth value tells whether it is zero. Between
double quotes the whole text is kept.

What is written anew is a literal of the kind that was asked for if its kind converts
(`Literal.reading_recast`), and the same text otherwise. So a literal stays one, never a name
(`Literal.isValue_recast`), and checking the values in a file against their types does not change which of
them are names, nor what those names are.
-/

namespace LightHeaders

open Text

/-- Whether the literals of a kind have a value. -/
def LiteralKind.isNumeric : LiteralKind → Bool
  | .int => true
  | .float => true
  | .bool => true
  | _ => false

/-- Whether a literal of one kind can be written as one of another: as one of the same kind, as a text, and
a number or truth value as any of these. -/
def LiteralKind.convertsTo (kind required : LiteralKind) : Bool :=
  kind = required || required = .string || kind.isNumeric && required.isNumeric

namespace Literal

/-! ## Values -/

/-- Decimal digits only. -/
def Digits (cs : List Char) : Prop := ∀ c ∈ cs, c.isDigit = true

/-- The number that digits stand for, the first of them the highest. -/
def number (cs : List Char) : ℕ := Nat.ofDigits 10 (cs.reverse.map fun c => c.toNat - '0'.toNat)

/-- The sign as it is written: a minus or nothing. -/
def sign (negative : Bool) : List Char := if negative then ['-'] else []

/-- The number with its sign. -/
def signed (negative : Bool) (q : ℚ) : ℚ := if negative then -q else q

/-- The value of a literal of a kind. Both parts of a float can be missing, but not at once. -/
inductive Denotes : LiteralKind → List Char → ℚ → Prop
  | yes : Denotes .bool "true".toList 1
  | no : Denotes .bool "false".toList 0
  | whole (negative : Bool) {digits : List Char} : Digits digits → digits ≠ [] →
      Denotes .int (sign negative ++ digits) (signed negative (number digits))
  | point (negative : Bool) {whole fraction suffix : List Char} : Digits whole → Digits fraction →
      whole ++ fraction ≠ [] → suffix = [] ∨ suffix = ['f'] →
      Denotes .float (sign negative ++ (whole ++ '.' :: (fraction ++ suffix)))
        (signed negative (number whole + number fraction / 10 ^ fraction.length))

/-- The text has the value `q` as a literal of a kind, and no other. -/
def HasValue (kind : LiteralKind) (s : String) (q : ℚ) : Prop :=
  ∀ q', Denotes kind s.toList q' ↔ q' = q

/-- The number without what is behind the point. -/
def towardZero (q : ℚ) : ℤ := if 0 ≤ q then ⌊q⌋ else ⌈q⌉

/-! ### Digits -/

variable {negative : Bool} {c : Char} {cs digits fraction suffix whole : List Char}
  {kind required : LiteralKind} {s : String}

theorem digits_iff : Digits cs ↔ cs.all Char.isDigit = true :=
  List.all_eq_true.symm

theorem Digits.not_mem (h : Digits cs) (hc : c.isDigit = false) :
    c ∉ cs := by
  intro hmem
  rw [h c hmem] at hc
  cases hc

theorem digitsZero : Digits ['0'] := by
  intro c hc
  rw [List.mem_singleton.mp hc]
  rfl

theorem number_zero : number ['0'] = 0 := by decide

theorem number_nil : number [] = 0 := rfl

theorem digit_lt (h : c.isDigit = true) : c.toNat - '0'.toNat < 10 := by
  simp only [Char.isDigit, Bool.and_eq_true, decide_eq_true_eq] at h
  have hupper : c.toNat ≤ 57 := h.2
  have hzero : '0'.toNat = 48 := rfl
  omega

theorem digit_eq_zero (h : c.isDigit = true) : c.toNat - '0'.toNat = 0 ↔ c = '0' := by
  simp only [Char.isDigit, Bool.and_eq_true, decide_eq_true_eq] at h
  have hlower : 48 ≤ c.toNat := h.1
  have hzero : '0'.toNat = 48 := rfl
  constructor
  · intro hsub
    refine Char.ext (UInt32.toNat_inj.mp ?_)
    show c.toNat = '0'.toNat
    omega
  · rintro rfl
    rfl

theorem number_lt (h : Digits cs) : number cs < 10 ^ cs.length := by
  have hlt := Nat.ofDigits_lt_base_pow_length (b := 10)
    (l := cs.reverse.map fun c => c.toNat - '0'.toNat) (by decide) (by
      intro d hd
      obtain ⟨c, hc, rfl⟩ := List.mem_map.mp hd
      exact digit_lt (h c (List.mem_reverse.mp hc)))
  rwa [List.length_map, List.length_reverse] at hlt

theorem number_eq_zero (h : Digits cs) : number cs = 0 ↔ ∀ c ∈ cs, c = '0' := by
  constructor
  · intro hzero c hc
    refine (digit_eq_zero (h c hc)).mp ?_
    refine Nat.digits_zero_of_eq_zero (by decide) hzero _ ?_
    exact List.mem_map.mpr ⟨c, List.mem_reverse.mpr hc, rfl⟩
  · intro hall
    have hlist : cs = List.replicate cs.length '0' := List.eq_replicate_iff.mpr ⟨rfl, hall⟩
    rw [number, hlist, List.reverse_replicate, List.map_replicate]
    induction cs.length with
    | zero => rfl
    | succ n ih => rw [List.replicate_succ, Nat.ofDigits_cons, ih]; rfl

/-! ### Signs -/

theorem signed_eq_zero {q : ℚ} : signed negative q = 0 ↔ q = 0 := by
  cases negative <;> simp [signed]

/-- What can stand behind a sign. -/
def Unsigned (cs : List Char) : Prop := cs.head? ≠ some '-'

theorem unsigned_append (h : Digits digits) {rest : List Char}
    (hr : Unsigned rest) : Unsigned (digits ++ rest) := by
  cases digits with
  | nil => exact hr
  | cons d ds =>
    intro hd
    cases hd
    exact absurd (h '-' (.head _)) (by decide)

theorem head?_sign_append (h : Unsigned cs) :
    decide ((sign negative ++ cs).head? = some '-') = negative := by
  cases negative with
  | true => rfl
  | false => exact decide_eq_false h

theorem dropLeading_sign_append (negative : Bool) (h : Unsigned cs) :
    dropLeading '-' (sign negative ++ cs) = cs := by
  cases negative with
  | true => rfl
  | false =>
    cases cs with
    | nil => rfl
    | cons c cs =>
      have hc : c ≠ '-' := fun hc => h (by rw [hc]; rfl)
      exact if_neg hc

theorem dropWhile_sign_append (negative : Bool) (h : Unsigned cs) :
    (sign negative ++ cs).dropWhile (· = '-') = cs := by
  have hstop : cs.dropWhile (· = '-') = cs := by
    cases cs with
    | nil => rfl
    | cons c cs =>
      have hc : c ≠ '-' := fun hc => h (by rw [hc]; rfl)
      simp [hc]
  cases negative with
  | true | false => exact hstop

/-! ### Reading a value off the text -/

theorem Digits.unsigned (h : Digits digits) : Unsigned digits := by
  have happend := unsigned_append h (show Unsigned [] by rintro ⟨⟩)
  rwa [List.append_nil] at happend

theorem unsigned_point (h : Digits whole) (rest : List Char) :
    Unsigned (whole ++ '.' :: rest) :=
  unsigned_append h (by rintro ⟨⟩)

theorem dropTrailing_suffix {front : List Char} (h : Digits fraction) (hs : suffix = [] ∨ suffix = ['f']) :
    dropTrailing 'f' (front ++ '.' :: (fraction ++ suffix)) = front ++ '.' :: fraction := by
  rcases hs with rfl | rfl
  · have hlast : (front ++ '.' :: fraction).getLast? ≠ some 'f' := by
      rw [List.getLast?_append, List.getLast?_cons]
      intro hf
      cases hlast : fraction.getLast? with
      | none =>
        rw [hlast] at hf
        cases hf
      | some c =>
        rw [hlast] at hf
        cases hf
        exact absurd (h 'f' (List.mem_of_getLast? hlast)) (by decide)
    rw [List.append_nil, dropTrailing, if_neg hlast]
  · rw [← List.cons_append, ← List.append_assoc, dropTrailing, if_pos List.getLast?_concat,
      List.dropLast_concat]

theorem cutFirst?_point (negative : Bool) (hwhole : Digits whole) (hfraction : Digits fraction)
    (hs : suffix = [] ∨ suffix = ['f']) :
    cutFirst? '.' (dropLeading '-' (dropTrailing 'f'
      (sign negative ++ (whole ++ '.' :: (fraction ++ suffix))))) = some (whole, fraction) := by
  rw [← List.append_assoc, dropTrailing_suffix hfraction hs, List.append_assoc,
    dropLeading_sign_append _ (unsigned_point hwhole _),
    Line.cutFirst?_append (hwhole.not_mem (by decide))]

theorem Denotes.eq_of_int {q : ℚ} (h : Denotes .int cs q) :
    q = signed (cs.head? = some '-') (number (dropLeading '-' cs)) := by
  cases h with
  | whole negative hdigits hne =>
    rw [head?_sign_append hdigits.unsigned, dropLeading_sign_append _ hdigits.unsigned]

theorem Denotes.eq_of_float {q : ℚ} (h : Denotes .float cs q) :
    ∃ whole fraction, cutFirst? '.' (dropLeading '-' (dropTrailing 'f' cs)) = some (whole, fraction) ∧
      q = signed (cs.head? = some '-') (number whole + number fraction / 10 ^ fraction.length) := by
  cases h with
  | @point negative whole fraction suffix hwhole hfraction hne hs =>
    refine ⟨whole, fraction, cutFirst?_point negative hwhole hfraction hs, ?_⟩
    rw [head?_sign_append (unsigned_point hwhole _)]

/-- **A text has one value at most.** -/
theorem Denotes.unique {q q' : ℚ} (h : Denotes kind cs q) (h' : Denotes kind cs q') : q = q' := by
  cases kind with
  | int => rw [h.eq_of_int, h'.eq_of_int]
  | float =>
    obtain ⟨whole, fraction, hcut, rfl⟩ := h.eq_of_float
    obtain ⟨whole', fraction', hcut', rfl⟩ := h'.eq_of_float
    rw [hcut] at hcut'
    cases hcut'
    rfl
  | bool =>
    have hbool : ∀ {q : ℚ}, Denotes .bool cs q → q = if cs = "true".toList then 1 else 0 := by
      intro q h
      cases h
      · rfl
      · rfl
    rw [hbool h, hbool h']
  | string | char => cases h

theorem Denotes.hasValue {q : ℚ} (h : Denotes kind s.toList q) :
    HasValue kind s q :=
  fun _ => ⟨fun h' => h'.unique h, fun heq => heq ▸ h⟩

/-! ## The texts that have a value -/

theorem Denotes.head {q : ℚ} (h : Denotes kind cs q) (hkind : kind ≠ .bool) :
    ∃ c, cs.head? = some c ∧ (c = '-' ∨ c = '.' ∨ c.isDigit = true) := by
  cases h with
  | yes | no => exact absurd rfl hkind
  | @whole negative digits hdigits hne =>
    cases negative with
    | true => exact ⟨'-', rfl, .inl rfl⟩
    | false =>
      cases digits with
      | nil => exact absurd rfl hne
      | cons d ds => exact ⟨d, rfl, .inr (.inr (hdigits d (.head _)))⟩
  | @point negative whole fraction suffix hwhole =>
    cases negative with
    | true => exact ⟨'-', rfl, .inl rfl⟩
    | false =>
      cases whole with
      | nil => exact ⟨'.', rfl, .inr (.inl rfl)⟩
      | cons d ds => exact ⟨d, rfl, .inr (.inr (hwhole d (.head _)))⟩

/-- What starts like a number is no truth value and stands in no quotes. -/
theorem reading_of_head (h : s.toList.head? = some c) (hc : c = '-' ∨ c = '.' ∨ c.isDigit = true) :
    reading s = if isIntegral s.toList then .value .int
      else if isFractional s.toList then .value .float
      else if isDottedName s.toList then .name else .invalid := by
  have hne : c ≠ '"' ∧ c ≠ '\'' ∧ c ≠ 't' ∧ c ≠ 'f' := by
    rcases hc with rfl | rfl | hc
    · decide
    · decide
    · refine ⟨?_, ?_, ?_, ?_⟩ <;> rintro rfl <;> exact absurd hc (by decide)
  have hquoted : ∀ quote, c ≠ quote → isEnclosed quote s.toList = false := by
    intro quote hquote
    simp [isEnclosed, h, hquote]
  have hbool : (s = "true" || s = "false") = false := by
    rw [Bool.or_eq_false_iff, decide_eq_false_iff_not, decide_eq_false_iff_not]
    constructor
    · rintro rfl
      cases h
      exact hne.2.2.1 rfl
    · rintro rfl
      cases h
      exact hne.2.2.2 rfl
  simp only [reading, hquoted '"' hne.1, hquoted '\'' hne.2.1, hbool, Bool.false_eq_true, if_false]

theorem sign_cases (negative : Bool) : sign negative = [] ∨ sign negative = ['-'] := by
  cases negative
  · exact .inl rfl
  · exact .inr rfl

theorem isIntegral_of_denotes {q : ℚ} (h : Denotes .int cs q) :
    isIntegral cs = true := by
  cases h with
  | whole negative hdigits hne =>
    rw [isIntegral, dropLeading_sign_append _ hdigits.unsigned, digits_iff.mp hdigits, Bool.and_true,
      Bool.not_eq_true', List.isEmpty_eq_false_iff]
    exact hne

theorem not_isIntegral_of_denotes {q : ℚ} (h : Denotes .float cs q) :
    isIntegral cs = false := by
  cases h with
  | @point negative whole fraction suffix hwhole =>
    rw [isIntegral, dropLeading_sign_append _ (unsigned_point hwhole _), Bool.and_eq_false_iff]
    refine .inr (List.all_eq_false.mpr ⟨'.', by simp, by decide⟩)

theorem isFractional_of_denotes {q : ℚ} (h : Denotes .float cs q) :
    isFractional cs = true := by
  cases h with
  | @point negative whole fraction suffix hwhole hfraction hne hs =>
    have hboth : (whole.isEmpty && fraction.isEmpty) = false := by
      cases whole with
      | nil =>
        cases fraction with
        | nil => exact absurd rfl hne
        | cons => rfl
      | cons => rfl
    rw [isFractional, cutFirst?_point negative hwhole hfraction hs]
    simp only [hboth, digits_iff.mp hwhole, digits_iff.mp hfraction, Bool.not_false, Bool.and_self]

/-- **A text with a value is read as a literal of its kind.** -/
theorem Denotes.reading_eq {q : ℚ} (h : Denotes kind s.toList q) :
    reading s = .value kind := by
  cases kind with
  | int =>
    obtain ⟨c, hhead, hc⟩ := h.head (by decide)
    rw [reading_of_head hhead hc, if_pos (isIntegral_of_denotes h)]
  | float =>
    obtain ⟨c, hhead, hc⟩ := h.head (by decide)
    rw [reading_of_head hhead hc, not_isIntegral_of_denotes h, isFractional_of_denotes h]
    rfl
  | bool =>
    have hbool : s = "true" ∨ s = "false" := by
      generalize hcs : s.toList = cs at h
      cases h with
      | yes => exact .inl (String.toList_inj.mp hcs)
      | no => exact .inr (String.toList_inj.mp hcs)
    rcases hbool with rfl | rfl <;> decide
  | string | char => cases h

theorem exists_sign_append (cs : List Char) : ∃ negative, cs = sign negative ++ dropLeading '-' cs := by
  cases cs with
  | nil => exact ⟨false, rfl⟩
  | cons c cs =>
    rw [dropLeading]
    split
    · next h => exact ⟨true, by rw [h]; rfl⟩
    · exact ⟨false, rfl⟩

theorem exists_denotes_of_isIntegral (h : isIntegral cs = true) :
    ∃ q, Denotes .int cs q := by
  simp only [isIntegral, Bool.and_eq_true, Bool.not_eq_true', List.isEmpty_eq_false_iff] at h
  obtain ⟨negative, hcs⟩ := exists_sign_append cs
  rw [hcs]
  exact ⟨_, .whole negative (digits_iff.mpr h.2) h.1⟩

theorem append_suffix_of_dropTrailing (cs : List Char) :
    ∃ suffix, (suffix = [] ∨ suffix = ['f']) ∧ cs = dropTrailing 'f' cs ++ suffix := by
  rw [dropTrailing]
  split
  · next hlast =>
    obtain ⟨front, rfl⟩ := List.getLast?_eq_some_iff.mp hlast
    exact ⟨['f'], .inr rfl, by rw [List.dropLast_concat]⟩
  · exact ⟨[], .inl rfl, (List.append_nil cs).symm⟩

theorem exists_denotes_of_isFractional (h : isFractional cs = true) :
    ∃ q, Denotes .float cs q := by
  rw [isFractional] at h
  split at h
  · cases h
  · next whole fraction hcut =>
    simp only [Bool.and_eq_true, Bool.not_eq_true', Bool.and_eq_false_iff,
      List.isEmpty_eq_false_iff] at h
    obtain ⟨⟨hne, hwhole⟩, hfraction⟩ := h
    have hboth : whole ++ fraction ≠ [] := by
      rw [ne_eq, List.append_eq_nil_iff, not_and_or]
      exact hne
    obtain ⟨suffix, hsuffix, hcs⟩ := append_suffix_of_dropTrailing cs
    obtain ⟨negative, hbody⟩ := exists_sign_append (dropTrailing 'f' cs)
    rw [(Line.cutFirst?_eq_some hcut).2] at hbody
    have htext : cs = sign negative ++ (whole ++ '.' :: (fraction ++ suffix)) := by
      rw [hcs, hbody]
      simp
    rw [htext]
    exact ⟨_, .point negative (digits_iff.mpr hwhole) (digits_iff.mpr hfraction) hboth hsuffix⟩

theorem bool_of_reading (h : reading s = .value .bool) : s = "true" ∨ s = "false" := by
  simp only [reading] at h
  grind

theorem exists_denotes (h : reading s = .value kind)
    (hkind : kind.isNumeric = true) : ∃ q, Denotes kind s.toList q := by
  cases kind with
  | int => exact exists_denotes_of_isIntegral (isIntegral_of_reading h)
  | float => exact exists_denotes_of_isFractional (isFractional_of_reading h)
  | bool =>
    rcases bool_of_reading h with rfl | rfl
    · exact ⟨1, .yes⟩
    · exact ⟨0, .no⟩
  | string | char => cases hkind

/-! ## Writing a number anew -/

theorem fraction_lt_one (h : Digits fraction) :
    (number fraction : ℚ) / 10 ^ fraction.length < 1 := by
  rw [div_lt_one (by positivity)]
  exact_mod_cast number_lt h

theorem towardZero_signed (negative : Bool) (n : ℕ) {x : ℚ} (h0 : 0 ≤ x) (h1 : x < 1) :
    ((towardZero (signed negative (n + x)) : ℤ) : ℚ) = signed negative n := by
  have hfloor : ⌊(n : ℚ) + x⌋ = n := by
    rw [Int.floor_eq_iff]
    push_cast
    exact ⟨by linarith, by linarith⟩
  have hn : (0 : ℚ) ≤ n := Nat.cast_nonneg n
  cases negative with
  | false =>
    simp only [signed, Bool.false_eq_true, if_false]
    rw [towardZero, if_pos (by linarith), hfloor]
    norm_cast
  | true =>
    simp only [signed, if_true]
    rw [towardZero]
    split
    · next hle =>
      -- minus zero
      have hnone : (n : ℚ) = 0 := by linarith
      have hx : x = 0 := by linarith
      rw [hnone, hx]
      simp
    · rw [Int.ceil_neg, hfloor]
      push_cast
      rfl

/-- A whole number with a point and a zero behind it is a float of the same value. -/
theorem Denotes.append_point {q : ℚ} (h : Denotes .int cs q) :
    Denotes .float (cs ++ ['.', '0']) q := by
  cases h with
  | @whole negative digits hdigits hne =>
    have hfloat := Denotes.point negative hdigits digitsZero (by simp)
      (show ([] : List Char) = [] ∨ [] = ['f'] from .inl rfl)
    rw [number_zero, Nat.cast_zero, zero_div, add_zero] at hfloat
    rw [List.append_assoc]
    exact hfloat

theorem toList_wholePart (hs : s.toList = sign negative ++ (whole ++ '.' :: (fraction ++ suffix)))
    (hwhole : Digits whole) (hfraction : Digits fraction) (hsuffix : suffix = [] ∨ suffix = ['f']) :
    (wholePart s).toList = sign negative ++ (if whole = [] then ['0'] else whole) := by
  have hpoint : '.' ∉ sign negative ++ whole := by
    rcases sign_cases negative with hsign | hsign <;> simp [hsign, hwhole.not_mem]
  have hfirst : (splitAt '.' (dropTrailing 'f' s.toList)).headD [] = sign negative ++ whole := by
    rw [hs, ← List.append_assoc, dropTrailing_suffix hfraction hsuffix, splitAt_append_cons hpoint]
    rfl
  rw [wholePart, hfirst]
  cases whole with
  | nil => cases negative <;> rfl
  | cons d ds =>
    have hd : d ≠ '-' := by
      rintro rfl
      exact absurd (hwhole '-' (.head _)) (by decide)
    cases negative with
    | true => simp [sign]
    | false =>
      simp only [sign, Bool.false_eq_true, if_false, List.nil_append]
      split
      · next hnil => cases hnil
      · next hminus => exact absurd (List.cons.inj hminus).1 hd
      · simp

theorem Denotes.wholePart {q : ℚ} (h : Denotes .float s.toList q) :
    Denotes .int (wholePart s).toList (towardZero q) := by
  generalize hcs : s.toList = cs at h
  cases h with
  | @point negative whole fraction suffix hwhole hfraction hne hs =>
    rw [toList_wholePart hcs hwhole hfraction hs,
      towardZero_signed negative _ (by positivity) (fraction_lt_one hfraction)]
    split
    · next hnil =>
      rw [hnil, number_nil, ← number_zero]
      exact .whole negative digitsZero (by simp)
    · next hsome => exact .whole negative hwhole hsome

/-- **A number has no digit but zero exactly if it is zero.** -/
theorem Denotes.isZero_iff {q : ℚ} (h : Denotes kind s.toList q)
    (hkind : kind ≠ .bool) : isZero s = true ↔ q = 0 := by
  have hdigits : ∀ {cs : List Char}, Digits cs →
      ((∀ c ∈ cs, (c = '0' || c = '.' || c = 'f') = true) ↔ number cs = 0) := by
    intro cs hcs
    rw [number_eq_zero hcs]
    refine forall₂_congr fun c hc => ?_
    have hpoint : c ≠ '.' := fun hpoint => absurd (hcs c hc) (by rw [hpoint]; decide)
    have hsuffix : c ≠ 'f' := fun hsuffix => absurd (hcs c hc) (by rw [hsuffix]; decide)
    simp [hpoint, hsuffix]
  generalize hcs : s.toList = cs at h
  rw [isZero, hcs, List.all_eq_true]
  cases h with
  | yes | no => exact absurd rfl hkind
  | whole negative hwhole hne =>
    rw [dropWhile_sign_append negative hwhole.unsigned, hdigits hwhole, signed_eq_zero, Nat.cast_eq_zero]
  | @point negative whole fraction suffix hwhole hfraction hne hs =>
    have hsuffix : ∀ c ∈ suffix, (c = '0' || c = '.' || c = 'f') = true := by
      rcases hs with rfl | rfl <;> simp
    have hfraction0 : (number fraction : ℚ) / 10 ^ fraction.length = 0 ↔ number fraction = 0 := by
      rw [div_eq_zero_iff, or_iff_left (by positivity), Nat.cast_eq_zero]
    rw [dropWhile_sign_append negative (unsigned_point hwhole _), signed_eq_zero,
      add_eq_zero_iff_of_nonneg (by positivity) (by positivity), Nat.cast_eq_zero, hfraction0,
      ← hdigits hwhole, ← hdigits hfraction]
    simp only [List.mem_append, List.mem_cons]
    constructor
    · intro hall
      exact ⟨fun c hc => hall c (.inl hc), fun c hc => hall c (.inr (.inr (.inl hc)))⟩
    · rintro ⟨hw, hf⟩ c (hc | rfl | hc | hc)
      · exact hw c hc
      · decide
      · exact hf c hc
      · exact hsuffix c hc

/-! ### Kind by kind -/

theorem denotes_zero : Denotes .int "0".toList 0 := by
  have h : Denotes .int (sign false ++ ['0']) (signed false (number ['0'])) :=
    .whole false digitsZero (by simp)
  rwa [number_zero, Nat.cast_zero] at h

theorem denotes_one : Denotes .int "1".toList 1 := by
  have hdigits : Digits ['1'] := by
    intro c hc
    rw [List.mem_singleton.mp hc]
    rfl
  have h : Denotes .int (sign false ++ ['1']) (signed false (number ['1'])) :=
    .whole false hdigits (by simp)
  rwa [show number ['1'] = 1 by decide, Nat.cast_one] at h

theorem Denotes.eq_of_bool {q : ℚ} (h : Denotes .bool s.toList q) :
    s = "true" ∧ q = 1 ∨ s = "false" ∧ q = 0 := by
  generalize hcs : s.toList = cs at h
  cases h with
  | yes => exact .inl ⟨String.toList_inj.mp hcs, rfl⟩
  | no => exact .inr ⟨String.toList_inj.mp hcs, rfl⟩

theorem Denotes.recast_float {q : ℚ} (h : Denotes kind s.toList q) :
    Denotes .float (recast s (some kind) (some .float)).toList q := by
  cases kind with
  | int =>
    simp only [recast, String.toList_append]
    exact h.append_point
  | float => exact h
  | bool =>
    rcases h.eq_of_bool with ⟨rfl, rfl⟩ | ⟨rfl, rfl⟩
    · exact denotes_one.append_point
    · exact denotes_zero.append_point
  | string | char => cases h

theorem Denotes.recast_int {q : ℚ} (h : Denotes kind s.toList q) :
    Denotes .int (recast s (some kind) (some .int)).toList (towardZero q) := by
  cases kind with
  | int =>
    have hsame : ((towardZero q : ℤ) : ℚ) = q := by
      have hround := towardZero_signed (decide (s.toList.head? = some '-'))
        (number (dropLeading '-' s.toList)) (le_refl (0 : ℚ)) zero_lt_one
      rw [add_zero, ← h.eq_of_int] at hround
      exact hround
    rw [hsame]
    exact h
  | float => exact h.wholePart
  | bool =>
    rcases h.eq_of_bool with ⟨rfl, rfl⟩ | ⟨rfl, rfl⟩
    · rw [show towardZero 1 = 1 by decide +kernel, Int.cast_one]
      exact denotes_one
    · rw [show towardZero 0 = 0 by decide +kernel, Int.cast_zero]
      exact denotes_zero
  | string | char => cases h

theorem Denotes.recast_bool {q : ℚ} (h : Denotes kind s.toList q) :
    recast s (some kind) (some .bool) = if q = 0 then "false" else "true" := by
  have hnumber : kind ≠ .bool → (if isZero s = true then "false" else "true") =
      if q = 0 then "false" else "true" := fun hkind => if_congr (h.isZero_iff hkind) rfl rfl
  cases kind with
  | int | float => exact hnumber (by decide)
  | bool =>
    rcases h.eq_of_bool with ⟨rfl, rfl⟩ | ⟨rfl, rfl⟩
    · exact (if_neg one_ne_zero).symm
    · exact (if_pos rfl).symm
  | string | char => cases h

/-! ## Writing a text between quotes -/

theorem reading_quoted (cs : List Char) : reading (String.ofList ('"' :: (cs ++ ['"']))) = .value .string := by
  rw [reading]
  simp only [String.toList_ofList, isEnclosed_quoted, if_true]

/-- What is written between quotes is what is quoted, and the quotes. -/
theorem recast_string (hkind : kind ≠ .string) (s : String) :
    recast s (some kind) (some .string) =
      String.ofList ('"' :: (s.toList.flatMap escapeChar ++ ['"'])) := by
  have hquoted : "\"" ++ escape s ++ "\"" =
      String.ofList ('"' :: (s.toList.flatMap escapeChar ++ ['"'])) := by
    refine String.toList_inj.mp ?_
    simp [escape]
  cases kind with
  | string => exact absurd rfl hkind
  | _ => exact hquoted

/-! ## Which kind is written -/

theorem recast_self (s : String) (kind : LiteralKind) : recast s (some kind) (some kind) = s := by
  cases kind <;> rfl

/-- **A literal of a kind that converts is written as one of the kind that is asked for.** -/
theorem reading_recast (h : reading s = .value kind) (hc : kind.convertsTo required = true) :
    reading (recast s (some kind) (some required)) = .value required := by
  simp only [LiteralKind.convertsTo, Bool.or_eq_true, decide_eq_true_eq, Bool.and_eq_true] at hc
  by_cases hsame : kind = required
  · rw [← hsame, recast_self, h]
  by_cases hstring : required = .string
  · rw [hstring, recast_string (fun hkind => hsame (hkind.trans hstring.symm)), reading_quoted]
  · obtain ⟨hkind, hrequired⟩ := hc.resolve_left (not_or.mpr ⟨hsame, hstring⟩)
    obtain ⟨q, hq⟩ := exists_denotes h hkind
    cases required with
    | int => exact hq.recast_int.reading_eq
    | float => exact hq.recast_float.reading_eq
    | bool =>
      rw [hq.recast_bool]
      split <;> decide
    | string | char => cases hrequired

theorem recast_of_not_convertsTo (hc : kind.convertsTo required = false) (s : String) :
    recast s (some kind) (some required) = s := by
  cases kind <;> cases required <;> first | rfl | cases hc

/-- **A literal that is written anew is a literal.** -/
theorem isValue_recast (h : reading s = .value kind)
    (required : LiteralKind) : (reading (recast s (some kind) (some required))).isValue = true := by
  cases hc : kind.convertsTo required with
  | true => rw [reading_recast h hc, Reading.isValue]
  | false => rw [recast_of_not_convertsTo hc, h, Reading.isValue]

/-! ## What writing anew keeps -/

/-- **Writing a literal anew keeps its value.** A number or truth value has one value; written as a float it
has the same, written as a whole number it has it rounded toward zero, and written as a truth value it is
`true` exactly if the value is not zero. A literal of any kind but that of texts, written as a text, is
between quotes that nothing in it ends, and is read back as it was. -/
theorem recast_value {s : String} {kind : LiteralKind} (h : reading s = .value kind) :
    (kind.isNumeric = true → ∃ q : ℚ, HasValue kind s q ∧
      (reading (recast s (some kind) (some .float)) = .value .float ∧
        HasValue .float (recast s (some kind) (some .float)) q) ∧
      (reading (recast s (some kind) (some .int)) = .value .int ∧
        HasValue .int (recast s (some kind) (some .int)) (towardZero q)) ∧
      recast s (some kind) (some .bool) = if q = 0 then "false" else "true") ∧
    (kind ≠ .string → reading (recast s (some kind) (some .string)) = .value .string ∧
      ∃ content, (recast s (some kind) (some .string)).toList = '"' :: (content ++ ['"']) ∧
        Line.Quoted '"' content ∧ unescape content = s.toList) := by
  constructor
  · intro hkind
    obtain ⟨q, hq⟩ := exists_denotes h hkind
    exact ⟨q, hq.hasValue, ⟨hq.recast_float.reading_eq, hq.recast_float.hasValue⟩,
      ⟨hq.recast_int.reading_eq, hq.recast_int.hasValue⟩, hq.recast_bool⟩
  · intro hkind
    rw [recast_string hkind, String.toList_ofList]
    exact ⟨reading_quoted _, _, rfl, quoted_escapeChars _, unescape_escapeChars _⟩

/-- A negative float with nothing before its point and an `f`; and a character that is a quote. -/
theorem recast_value_half :
    reading "-.5f" = .value .float ∧ HasValue .float "-.5f" (-1 / 2) ∧
      HasValue .int "-0" (towardZero (-1 / 2)) ∧
      reading "'\"'" = .value .char ∧ recast "'\"'" (some .char) (some .string) = "\"'\\\"'\"" ∧
      ∃ content, "\"'\\\"'\"".toList = '"' :: (content ++ ['"']) ∧ Line.Quoted '"' content ∧
        unescape content = "'\"'".toList := by
  have hfloat : reading "-.5f" = .value .float := by decide +kernel
  have hchar : reading "'\"'" = .value .char := by decide +kernel
  obtain ⟨q, hq, -, ⟨-, hint⟩, -⟩ := (recast_value hfloat).1 rfl
  have hhalf : -1 / 2 = q := by
    have hfive : Digits ['5'] := by
      intro c hc
      rw [List.mem_singleton.mp hc]
      rfl
    have hspelled := Denotes.point true (show Digits [] by rintro c ⟨⟩) hfive (by simp)
      (show ['f'] = [] ∨ ['f'] = ['f'] from .inr rfl)
    rw [← (hq _).mp hspelled, number_nil, show number ['5'] = 5 by decide]
    norm_num [signed]
  rw [← hhalf] at hq hint
  have hquoted : recast "'\"'" (some .char) (some .string) = "\"'\\\"'\"" := by decide +kernel
  obtain ⟨-, content, htext, hcontent⟩ := (recast_value hchar).2 (by decide)
  rw [hquoted] at htext
  exact ⟨hfloat, hq, hint, hchar, hquoted, content, htext, hcontent⟩

end Literal

end LightHeaders
