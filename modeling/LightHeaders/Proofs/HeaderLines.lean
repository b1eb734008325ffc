import LightHeaders.Prototype
import LightHeaders.Proofs.LinePhrases

set_option autoImplicit false

/-! # The lines of a header

Read as C++, a line that starts outside a block comment is code, interrupted by block comments and ended by
a line comment, by a block comment that stays open, or by nothing (`Header.Row`); a line that starts inside
one belongs to the comment up to the first `*/` (`Header.Line`). The reader looks for the markers in
another order: for the first `//` of a line, in front of it for the first `/*`, and behind that for a `*/`.
Where the two agree on which lines start inside a comment (`Header.Follows`), the reader sees of each line
the code in front of its first comment, and nothing else (`Header.code_layout`).
-/

namespace LightHeaders

namespace Text

/-! ## Pairs of characters -/

variable {a b c : Char} {cs gap u v xs ys : List Char}

theorem pair_infix_cons :
    [a, b] <:+: c :: cs ↔ (c = a ∧ cs.head? = some b) ∨ [a, b] <:+: cs := by
  rw [List.infix_cons_iff, List.cons_prefix_cons]
  cases cs with
  | nil => simp
  | cons d ds => simp [eq_comm]

theorem pair_infix_append :
    [a, b] <:+: xs ++ ys ↔
      [a, b] <:+: xs ∨ [a, b] <:+: ys ∨ xs.getLast? = some a ∧ ys.head? = some b := by
  induction xs with
  | nil => simp
  | cons x xs ih =>
    rw [List.cons_append, pair_infix_cons, pair_infix_cons, ih]
    cases xs with
    | nil => simp [or_comm]
    | cons y ys => simp [or_assoc]

theorem not_pair_infix_take_one (a b : Char) (cs : List Char) : ¬[a, b] <:+: cs.take 1 := by
  cases cs <;> simp [pair_infix_cons]

theorem before?_cons (h : ¬(c = a ∧ cs.head? = some b)) :
    before? a b (c :: cs) = (before? a b cs).map (c :: ·) := by
  cases cs with
  | nil => rfl
  | cons d ds =>
    rw [before?, if_neg]
    simpa using h

theorem after?_cons (h : ¬(c = a ∧ cs.head? = some b)) :
    after? a b (c :: cs) = after? a b cs := by
  cases cs with
  | nil => rfl
  | cons d ds =>
    rw [after?, if_neg]
    simpa using h

theorem before?_append (h : ¬[a, b] <:+: u ++ v.take 1) :
    before? a b (u ++ v) = (before? a b v).map (u ++ ·) := by
  induction u with
  | nil => simp
  | cons c u ih =>
    rw [List.cons_append, pair_infix_cons, not_or] at h
    have hhead : (u ++ v).head? = (u ++ v.take 1).head? := by
      cases u <;> cases v <;> rfl
    rw [List.cons_append, before?_cons (hhead ▸ h.1), ih h.2, Option.map_map]
    rfl

theorem before?_pair (a b : Char) (cs : List Char) : before? a b (a :: b :: cs) = some [] := by
  rw [before?, if_pos ⟨rfl, rfl⟩]

theorem before?_eq_none_iff : before? a b cs = none ↔ ¬[a, b] <:+: cs := by
  induction cs with
  | nil => simp [before?]
  | cons c cs ih =>
    by_cases hpair : c = a ∧ cs.head? = some b
    · obtain ⟨rfl, hhead⟩ := hpair
      obtain ⟨back, rfl⟩ := List.head?_eq_some_iff.mp hhead
      rw [before?_pair, pair_infix_cons]
      simp
    · rw [before?_cons hpair, Option.map_eq_none_iff, ih, pair_infix_cons, or_iff_right hpair]

theorem exists_of_before? {front : List Char} (h : before? a b cs = some front) :
    ∃ back, cs = front ++ a :: b :: back ∧ ¬[a, b] <:+: front := by
  induction cs generalizing front with
  | nil => cases h
  | cons c cs ih =>
    by_cases hpair : c = a ∧ cs.head? = some b
    · obtain ⟨rfl, hhead⟩ := hpair
      obtain ⟨back, rfl⟩ := List.head?_eq_some_iff.mp hhead
      rw [before?_pair] at h
      cases h
      exact ⟨back, rfl, by simp⟩
    · rw [before?_cons hpair] at h
      obtain ⟨rest, hrest, rfl⟩ := Option.map_eq_some_iff.mp h
      obtain ⟨back, rfl, hfree⟩ := ih hrest
      refine ⟨back, rfl, ?_⟩
      cases rest with
      | nil => simp [pair_infix_cons]
      | cons d ds =>
        rw [pair_infix_cons, not_or]
        exact ⟨hpair, hfree⟩

theorem exists_first_pair (h : [a, b] <:+: cs) :
    ∃ front back, cs = front ++ a :: b :: back ∧ ¬[a, b] <:+: front := by
  cases hbefore : before? a b cs with
  | none => exact absurd h (before?_eq_none_iff.mp hbefore)
  | some front => exact ⟨front, exists_of_before? hbefore⟩

theorem after?_eq_none_iff : after? a b cs = none ↔ ¬[a, b] <:+: cs := by
  induction cs with
  | nil => simp [after?]
  | cons c cs ih =>
    by_cases hpair : c = a ∧ cs.head? = some b
    · obtain ⟨rfl, hhead⟩ := hpair
      obtain ⟨back, rfl⟩ := List.head?_eq_some_iff.mp hhead
      rw [after?, if_pos ⟨rfl, rfl⟩, pair_infix_cons]
      simp
    · rw [after?_cons hpair, ih, pair_infix_cons, or_iff_right hpair]

theorem after?_append_pair (h : ¬[a, b] <:+: u ++ [a]) (v : List Char) :
    after? a b (u ++ a :: b :: v) = some v := by
  induction u with
  | nil => rw [List.nil_append, after?, if_pos ⟨rfl, rfl⟩]
  | cons c u ih =>
    rw [List.cons_append, pair_infix_cons, not_or] at h
    have hhead : (u ++ a :: b :: v).head? = (u ++ [a]).head? := by
      cases u <;> rfl
    rw [List.cons_append, after?_cons (hhead ▸ h.1), ih h.2]

/-! ## Trimming -/

theorem trimStart_append (u : List Char) (hv : Flush v) :
    trimStart (u ++ v) = trimStart u ++ v := by
  rw [trimStart, List.dropWhile_append]
  split
  · next hempty =>
    rw [trimStart, List.isEmpty_iff.mp hempty]
    exact trimStart_of_flush hv
  · rfl

theorem trimEnd_append (hu : SolidEnd u) (v : List Char) :
    trimEnd (u ++ v) = u ++ trimEnd v := by
  rw [trimEnd, List.reverse_append, List.dropWhile_append]
  split
  · next hempty =>
    have hv : trimEnd v = [] := by rw [trimEnd, List.isEmpty_iff.mp hempty, List.reverse_nil]
    rw [hv, List.append_nil]
    exact trimEnd_of_solidEnd hu
  · rw [List.reverse_append, List.reverse_reverse]
    rfl

theorem trimEnd_append_gap (cs : List Char) (h : Line.Gap gap) :
    trimEnd (cs ++ gap) = trimEnd cs := by
  rw [trimEnd, List.reverse_append, List.dropWhile_append_of_pos fun c hc => h c (List.mem_reverse.mp hc)]
  rfl

theorem trim_append_gap (cs : List Char) (h : Line.Gap gap) : trim (cs ++ gap) = trim cs := by
  rw [trim, trim, trimStart, trimStart, List.dropWhile_append]
  split
  · next hempty =>
    rw [List.isEmpty_iff.mp hempty, List.dropWhile_eq_nil_iff.mpr h]
  · exact trimEnd_append_gap _ h

theorem trim_trimEnd (cs : List Char) : trim (trimEnd cs) = trim cs := by
  have hgap : Line.Gap (cs.reverse.takeWhile isBlank).reverse := fun c hc =>
    Line.gap_takeWhile cs.reverse c (List.mem_reverse.mp hc)
  have hcs : trimEnd cs ++ (cs.reverse.takeWhile isBlank).reverse = cs := by
    rw [trimEnd, ← List.reverse_append, List.takeWhile_append_dropWhile, List.reverse_reverse]
  rw [← trim_append_gap (trimEnd cs) hgap, hcs]

theorem trimEnd_append_pair (u : List Char) (a : Char) (hb : isBlank b = false) (v : List Char) :
    trimEnd (u ++ a :: b :: v) = u ++ a :: b :: trimEnd v := by
  rw [show u ++ a :: b :: v = u ++ [a, b] ++ v by simp,
    trimEnd_append (SolidEnd.append_left _ ⟨b, rfl, hb⟩)]
  simp

theorem trim_append_pair (u : List Char) (ha : isBlank a = false) (hb : isBlank b = false)
    (v : List Char) : trim (u ++ a :: b :: v) = trimStart u ++ a :: b :: trimEnd v := by
  rw [trim, trimStart_append u (Flush.cons ha _), trimEnd_append_pair _ a hb]

theorem head?_ne_of_initial (h : xs <+: ys) (hne : ys.head? ≠ some c) :
    xs.head? ≠ some c := by
  obtain ⟨rest, rfl⟩ := h
  cases xs with
  | nil => simp
  | cons x xs => exact hne

end Text

namespace Header

open Text

/-! ## Lines as C++ reads them -/

/-- What stands on a line behind its first run of code. -/
inductive Ending where
  /-- Nothing. -/
  | none
  /-- A line comment. -/
  | remark (text : List Char)
  /-- A block comment that is open at the end of the line. -/
  | opening (text : List Char)
  /-- A block comment that is closed on the line, more code, and what stands behind that. -/
  | closed (text code : List Char) (more : Ending)

namespace Ending

def text : Ending → List Char
  | none => []
  | remark text => '/' :: '/' :: text
  | opening text => '/' :: '*' :: text
  | closed text code more => '/' :: '*' :: (text ++ '*' :: '/' :: (code ++ more.text))

/-- Whether a block comment is open at the end of the line. -/
def opens : Ending → Bool
  | none | remark _ => false
  | opening _ => true
  | closed _ _ more => more.opens

/-- The code between the comments, if there is more than blanks. -/
def code : Ending → List Char
  | none | remark _ | opening _ => []
  | closed _ code more => (if (trim code).isEmpty then [] else ' ' :: code) ++ more.code

/-- Code in front of an ending: no comment starts in it, and none with its last character. -/
structure Fronted (code : List Char) (ending : Ending) : Prop where
  noRemark : ¬['/', '/'] <:+: code
  noComment : ¬['/', '*'] <:+: code
  apart : ending = none ∨ code.getLast? ≠ some '/'

/-- A block comment ends with the first `*/`, and what stands behind it is code again. -/
def Proper : Ending → Prop
  | none | remark _ => True
  | opening text => ¬['*', '/'] <:+: text
  | closed text code more => ¬['*', '/'] <:+: text ∧ Fronted code more ∧ more.Proper

/-- The reader knows whether a comment is open at the end of the line: no comment that is closed on the line
of its start holds a `//`, has a `/` directly behind it or is followed by one that stays open, and none
that stays open starts with `/*/`. -/
def Legible : Ending → Prop
  | none | remark _ => True
  | opening text => text.head? ≠ some '/'
  | closed text code more =>
    ¬['/', '/'] <:+: text ∧ (code ++ more.text).head? ≠ some '/' ∧ more.opens = false

end Ending

/-- A line, or the rest of one, outside a block comment. -/
inductive Row where
  /-- A line for the preprocessor: blanks, `#`, and what it says. -/
  | directive (gap text : List Char) (ending : Ending)
  | code (text : List Char) (ending : Ending)

namespace Row

def ending : Row → Ending
  | directive _ _ ending | code _ ending => ending

def text : Row → List Char
  | directive gap text ending => gap ++ '#' :: (text ++ ending.text)
  | code text ending => text ++ ending.text

/-- Of what stands outside comments, the part that the reader sees: the code in front of the first comment,
without the blanks at the ends of the line. -/
def seen : Row → List Char
  | directive _ _ _ => []
  | code text .none => trim text ++ [' ']
  | code text _ => trimStart text ++ [' ']

/-- The code outside comments. -/
def outside : Row → List Char
  | directive _ _ _ => []
  | code text ending => (code text ending).seen ++ ending.code

/-- What makes a row a line for the preprocessor is the `#` at its start. -/
def Proper : Row → Prop
  | directive gap text ending => Line.Gap gap ∧ ending.Fronted text ∧ ending.Proper
  | code text ending => (trimStart text).head? ≠ some '#' ∧ ending.Fronted text ∧ ending.Proper

/-- The reader knows whether a comment is open at the end of the row; a line for the preprocessor is passed
over as a whole, so it must not open one. -/
def Legible : Row → Prop
  | directive _ _ ending => ending.opens = false
  | code _ ending => ending.Legible

/-- No code stands behind a comment, and no line for the preprocessor goes on in the next one. -/
def Bare (row : Row) : Prop :=
  match row with
  | directive _ _ _ => row.text.getLast? ≠ some '\\'
  | code _ ending => ending.code = []

end Row

/-- A line of a header. -/
inductive Line where
  /-- A line inside a block comment. -/
  | inside (text : List Char)
  /-- A line that starts inside a block comment and goes on behind it. -/
  | closing (text : List Char) (row : Row)
  /-- A line that starts outside comments. -/
  | free (row : Row)

namespace Line

def text : Line → List Char
  | inside text => text
  | closing text row => text ++ '*' :: '/' :: row.text
  | free row => row.text

/-- What stands outside the comment that the line starts in. -/
def row? : Line → Option Row
  | inside _ => none
  | closing _ row | free row => some row

end Line

/-- Lines that follow each other, the first one inside a block comment or not: a line starts inside one if
and only if the line before it leaves one open. -/
inductive Follows : Bool → List Line → Prop
  | nil {inComment : Bool} : Follows inComment []
  | inside {text : List Char} {layout : List Line} (inner : ¬['*', '/'] <:+: text)
      (rest : Follows true layout) : Follows true (.inside text :: layout)
  | closing {text : List Char} {row : Row} {layout : List Line} (inner : ¬['*', '/'] <:+: text)
      (proper : row.Proper) (rest : Follows row.ending.opens layout) :
      Follows true (.closing text row :: layout)
  | free {row : Row} {layout : List Line} (proper : row.Proper) (rest : Follows row.ending.opens layout) :
      Follows false (.free row :: layout)

/-- What the reader sees of the lines. -/
def seen (layout : List Line) : List Char := (layout.filterMap Line.row?).flatMap Row.seen

/-- The code outside comments and lines for the preprocessor. -/
def outside (layout : List Line) : List Char := (layout.filterMap Line.row?).flatMap Row.outside

/-! ## Every text has a layout -/

theorem exists_first_comment (cs : List Char) :
    (¬['/', '/'] <:+: cs ∧ ¬['/', '*'] <:+: cs) ∨ ∃ code mark rest, cs = code ++ '/' :: mark :: rest ∧
      (mark = '/' ∨ mark = '*') ∧ ¬['/', '/'] <:+: code ∧ ¬['/', '*'] <:+: code ∧ code.getLast? ≠ some '/' := by
  induction cs with
  | nil => exact .inl ⟨by simp, by simp⟩
  | cons c cs ih =>
    by_cases hstart : c = '/' ∧ (cs.head? = some '/' ∨ cs.head? = some '*')
    · obtain ⟨rfl, hhead⟩ := hstart
      obtain ⟨mark, hmark, hcs⟩ : ∃ mark, (mark = '/' ∨ mark = '*') ∧ cs.head? = some mark :=
        hhead.elim (fun heq => ⟨'/', .inl rfl, heq⟩) fun heq => ⟨'*', .inr rfl, heq⟩
      obtain ⟨rest, rfl⟩ := List.head?_eq_some_iff.mp hcs
      exact .inr ⟨[], mark, rest, rfl, hmark, by simp, by simp, by simp⟩
    · have hremark : ¬(c = '/' ∧ cs.head? = some '/') := fun heq => hstart ⟨heq.1, .inl heq.2⟩
      have hcomment : ¬(c = '/' ∧ cs.head? = some '*') := fun heq => hstart ⟨heq.1, .inr heq.2⟩
      rcases ih with ⟨hno, hno'⟩ | ⟨code, mark, rest, rfl, hmark, hno, hno', hlast⟩
      · rw [pair_infix_cons, or_iff_right hremark, pair_infix_cons, or_iff_right hcomment]
        exact .inl ⟨hno, hno'⟩
      · refine .inr ⟨c :: code, mark, rest, rfl, hmark, ?_⟩
        cases code with
        | nil => simpa [pair_infix_cons] using hremark
        | cons d ds =>
          refine ⟨fun hpair => ?_, fun hpair => ?_, ?_⟩
          · exact (pair_infix_cons.mp hpair).elim hremark hno
          · exact (pair_infix_cons.mp hpair).elim hcomment hno'
          · rwa [List.getLast?_cons_cons]

theorem exists_ending (cs : List Char) :
    ∃ (code : List Char) (ending : Ending), cs = code ++ ending.text ∧ ending.Fronted code ∧ ending.Proper := by
  induction hlength : cs.length using Nat.strongRecOn generalizing cs with
  | ind n ih =>
    rcases exists_first_comment cs with ⟨hno, hno'⟩ | ⟨code, mark, rest, rfl, hmark, hno, hno', hlast⟩
    · exact ⟨cs, .none, by simp [Ending.text], ⟨hno, hno', .inl rfl⟩, trivial⟩
    · rcases hmark with rfl | rfl
      · exact ⟨code, .remark rest, rfl, ⟨hno, hno', .inr hlast⟩, trivial⟩
      · by_cases hclosed : ['*', '/'] <:+: rest
        · obtain ⟨comment, behind, rfl, hinner⟩ := exists_first_pair hclosed
          obtain ⟨code', more, rfl, hfronted, hproper⟩ := ih behind.length (by
            rw [← hlength]
            simp only [List.length_append, List.length_cons]
            omega) behind rfl
          exact ⟨code, .closed comment code' more, rfl, ⟨hno, hno', .inr hlast⟩, hinner, hfronted, hproper⟩
        · exact ⟨code, .opening rest, rfl, ⟨hno, hno', .inr hlast⟩, hclosed⟩

theorem exists_row (cs : List Char) : ∃ row : Row, cs = row.text ∧ row.Proper := by
  by_cases hhash : (trimStart cs).head? = some '#'
  · obtain ⟨rest, hrest⟩ := List.head?_eq_some_iff.mp hhash
    obtain ⟨text, ending, rfl, hfronted, hproper⟩ := exists_ending rest
    refine ⟨.directive (cs.takeWhile isBlank) text ending, ?_, Line.gap_takeWhile cs, hfronted, hproper⟩
    rw [Row.text, ← hrest]
    exact (Line.takeWhile_append_trimStart cs).symm
  · obtain ⟨code, ending, rfl, hfronted, hproper⟩ := exists_ending cs
    refine ⟨.code code ending, rfl, fun heq => hhash ?_, hfronted, hproper⟩
    obtain ⟨rest, hrest⟩ := List.head?_eq_some_iff.mp heq
    rw [trimStart, List.dropWhile_append, ← trimStart, hrest]
    rfl

/-- **Every text has a layout.** -/
theorem exists_layout (inComment : Bool) (ls : List (List Char)) :
    ∃ layout, ls = layout.map Line.text ∧ Follows inComment layout := by
  induction ls generalizing inComment with
  | nil => exact ⟨[], rfl, .nil⟩
  | cons l ls ih =>
    cases inComment with
    | false =>
      obtain ⟨row, rfl, hproper⟩ := exists_row l
      obtain ⟨layout, rfl, hlayout⟩ := ih row.ending.opens
      exact ⟨.free row :: layout, rfl, .free hproper hlayout⟩
    | true =>
      by_cases hclosed : ['*', '/'] <:+: l
      · obtain ⟨text, behind, rfl, hinner⟩ := exists_first_pair hclosed
        obtain ⟨row, rfl, hproper⟩ := exists_row behind
        obtain ⟨layout, rfl, hlayout⟩ := ih row.ending.opens
        exact ⟨.closing text row :: layout, rfl, .closing hinner hproper hlayout⟩
      · obtain ⟨layout, rfl, hlayout⟩ := ih true
        exact ⟨.inside l :: layout, rfl, .inside hclosed hlayout⟩

/-! ## Lines as the reader sees them -/

/-- Code in which no comment starts is seen as it is. -/
theorem codeOf_code {code : List Char} (h : ¬['/', '/'] <:+: code) (h' : ¬['/', '*'] <:+: code) :
    codeOf code = (code, false) := by
  rw [codeOf, before?_eq_none_iff.mpr h, Option.getD_none, before?_eq_none_iff.mpr h']

section

variable {code : List Char} (h : ¬['/', '/'] <:+: code) (h' : ¬['/', '*'] <:+: code)
  (hlast : code.getLast? ≠ some '/')
include h h' hlast

theorem codeOf_remark (text : List Char) : codeOf (code ++ '/' :: '/' :: text) = (code, false) := by
  have hbefore : before? '/' '/' (code ++ '/' :: '/' :: text) = some code := by
    rw [before?_append, before?_pair, Option.map_some, List.append_nil]
    simp [pair_infix_append, h, hlast, pair_infix_cons]
  rw [codeOf, hbefore, Option.getD_some, before?_eq_none_iff.mpr h']

/-- Of a block comment the reader looks at what stands in front of the first `//`. -/
theorem codeOf_comment (text : List Char) : codeOf (code ++ '/' :: '*' :: text) =
    (code, (after? '*' '/' ('/' :: '*' :: (before? '/' '/' text).getD text)).isNone) := by
  have hremark : before? '/' '/' (code ++ '/' :: '*' :: text)
      = (before? '/' '/' text).map (code ++ '/' :: '*' :: ·) := by
    have happend := before?_append (a := '/') (b := '/') (u := code ++ ['/', '*']) (v := text) <| by
      simp [pair_infix_append, pair_infix_cons, h, hlast, not_pair_infix_take_one]
    simpa using happend
  have hcut : (before? '/' '/' (code ++ '/' :: '*' :: text)).getD (code ++ '/' :: '*' :: text)
      = code ++ '/' :: '*' :: (before? '/' '/' text).getD text := by
    rw [hremark]
    cases before? '/' '/' text <;> rfl
  have hcomment : ∀ rest, before? '/' '*' (code ++ '/' :: '*' :: rest) = some code := by
    intro rest
    rw [before?_append, before?_pair, Option.map_some, List.append_nil]
    simp [pair_infix_append, pair_infix_cons, h']
  rw [codeOf, hcut, hcomment]
  simp

variable {text : List Char}

theorem codeOf_opening (htext : ¬['*', '/'] <:+: text) (hhead : text.head? ≠ some '/') :
    codeOf (code ++ '/' :: '*' :: text) = (code, true) := by
  have hcut : (before? '/' '/' text).getD text <+: text := by
    cases hbefore : before? '/' '/' text with
    | none => exact List.prefix_rfl
    | some front =>
      obtain ⟨back, rfl, -⟩ := exists_of_before? hbefore
      exact List.prefix_append front _
  have hopen : ¬['*', '/'] <:+: '/' :: '*' :: (before? '/' '/' text).getD text := by
    rw [pair_infix_cons, pair_infix_cons]
    rintro (⟨heq, -⟩ | ⟨-, heq⟩ | hinside)
    · cases heq
    · exact head?_ne_of_initial hcut hhead heq
    · exact htext (hinside.trans hcut.isInfix)
  rw [codeOf_comment h h' hlast, after?_eq_none_iff.mpr hopen]
  rfl

theorem codeOf_closed {behind : List Char} (htext : ¬['/', '/'] <:+: text) (hhead : behind.head? ≠ some '/') :
    codeOf (code ++ '/' :: '*' :: (text ++ '*' :: '/' :: behind)) = (code, false) := by
  have happend := before?_append (a := '/') (b := '/') (u := text ++ ['*', '/']) (v := behind) <| by
    cases behind with
    | nil => simp [pair_infix_append, pair_infix_cons, htext]
    | cons c cs => simpa [pair_infix_append, pair_infix_cons, htext] using hhead
  obtain ⟨cut, hcut⟩ : ∃ cut, (before? '/' '/' (text ++ '*' :: '/' :: behind)).getD
      (text ++ '*' :: '/' :: behind) = text ++ '*' :: '/' :: cut := by
    rw [List.append_assoc] at happend
    rw [show text ++ '*' :: '/' :: behind = text ++ (['*', '/'] ++ behind) from rfl, happend]
    cases before? '/' '/' behind with
    | none => exact ⟨behind, rfl⟩
    | some front => exact ⟨front, by simp⟩
  rw [codeOf_comment h h' hlast, hcut]
  cases hafter : after? '*' '/' ('/' :: '*' :: (text ++ '*' :: '/' :: cut)) with
  | none => exact absurd ⟨'/' :: '*' :: text, cut, by simp⟩ (after?_eq_none_iff.mp hafter)
  | some back => rfl

end

theorem code_free (raw : List Char) (rest : List (List Char)) : code false (raw :: rest) =
    if (trim raw).head? = some '#' then code false rest
    else (codeOf (trim raw)).1 ++ ' ' :: code (codeOf (trim raw)).2 rest := by
  rw [code]
  rfl

/-- **One row**: the reader sees the code in front of the first comment. -/
theorem code_row {row : Row} (hproper : row.Proper) (hlegible : row.Legible) (rest : List (List Char)) :
    code false (row.text :: rest) = row.seen ++ code row.ending.opens rest := by
  rw [code_free]
  cases row with
  | directive gap text ending =>
    obtain ⟨hgap, -, -⟩ := hproper
    have hopens : ending.opens = false := hlegible
    have hline : trim (Row.directive gap text ending).text = '#' :: trimEnd (text ++ ending.text) := by
      rw [Row.text, trim, hgap.trimStart_append (Flush.cons (by decide) _)]
      exact trimEnd_append (u := ['#']) ⟨'#', rfl, by decide⟩ _
    rw [hline, List.head?_cons, if_pos rfl, Row.seen, Row.ending, hopens]
    rfl
  | code text ending =>
    obtain ⟨hhash, ⟨hremark, hcomment, hapart⟩, hending⟩ := hproper
    have hsuffix : trimStart text <:+ text := List.dropWhile_suffix isBlank
    have hremark' : ¬['/', '/'] <:+: trimStart text := fun hinside => hremark (hinside.trans hsuffix.isInfix)
    have hcomment' : ¬['/', '*'] <:+: trimStart text := fun hinside => hcomment (hinside.trans hsuffix.isInfix)
    have hlast : text.getLast? ≠ some '/' → (trimStart text).getLast? ≠ some '/' := by
      obtain ⟨gap, hgap⟩ := hsuffix
      intro hne heq
      refine hne ?_
      rw [← hgap, List.getLast?_append, heq]
      rfl
    -- a line that starts with a comment does not start with `#`
    have hcode : ∀ rest : List Char, (trimStart text ++ '/' :: rest).head? ≠ some '#' := by
      intro rest
      cases hstart : trimStart text with
      | nil => simp
      | cons c cs =>
        rw [hstart] at hhash
        exact hhash
    cases ending with
    | none =>
      have hinitial : trim text <+: trimStart text := trimEnd_initial _
      have hhead : (trim text).head? ≠ some '#' := head?_ne_of_initial hinitial hhash
      have hcodeOf := codeOf_code (fun hinside => hremark' (hinside.trans hinitial.isInfix))
        (fun hinside => hcomment' (hinside.trans hinitial.isInfix))
      rw [Row.text, Ending.text, List.append_nil, if_neg hhead, hcodeOf]
      simp [Row.seen, Row.ending, Ending.opens]
    | remark comment =>
      have hlast' := hlast (hapart.resolve_left (by simp))
      rw [Row.text, Ending.text, trim_append_pair text (by decide) (by decide), if_neg (hcode _),
        codeOf_remark hremark' hcomment' hlast']
      simp [Row.seen, Row.ending, Ending.opens]
    | opening comment =>
      have hlast' := hlast (hapart.resolve_left (by simp))
      have hinitial := trimEnd_initial comment
      have hhead : (trimEnd comment).head? ≠ some '/' := head?_ne_of_initial hinitial hlegible
      rw [Row.text, Ending.text, trim_append_pair text (by decide) (by decide), if_neg (hcode _),
        codeOf_opening hremark' hcomment' hlast' (fun hinside => hending (hinside.trans hinitial.isInfix)) hhead]
      simp [Row.seen, Row.ending, Ending.opens]
    | closed comment code more =>
      have hlast' := hlast (hapart.resolve_left (by simp))
      obtain ⟨hinner, hbehind, hopens⟩ := hlegible
      have hhead : (trimEnd (code ++ more.text)).head? ≠ some '/' :=
        head?_ne_of_initial (trimEnd_initial _) hbehind
      rw [Row.text, Ending.text, trim_append_pair text (by decide) (by decide), if_neg (hcode _),
        trimEnd_append_pair comment '*' (by decide),
        codeOf_closed hremark' hcomment' hlast' hinner hhead]
      simp [Row.seen, Row.ending, Ending.opens, hopens]

variable {text : List Char}

/-- Behind the end of a comment, the rest of the line is read like a line of its own. -/
theorem code_closing (h : ¬['*', '/'] <:+: text) (behind : List Char) (rest : List (List Char)) :
    code true ((text ++ '*' :: '/' :: behind) :: rest) = code false (behind :: rest) := by
  have hsuffix : trimStart text <:+ text := List.dropWhile_suffix isBlank
  have hafter : after? '*' '/' (trim (text ++ '*' :: '/' :: behind)) = some (trimEnd behind) := by
    rw [trim_append_pair text (by decide) (by decide), after?_append_pair]
    simpa [pair_infix_append, pair_infix_cons] using fun hinside => h (hinside.trans hsuffix.isInfix)
  rw [code, hafter, code_free, ← trim_trimEnd behind]
  rfl

theorem code_inside (h : ¬['*', '/'] <:+: text) (rest : List (List Char)) :
    code true (text :: rest) = code true rest := by
  have hinside : trim text <:+: text :=
    (trimEnd_initial (trimStart text)).isInfix.trans (List.dropWhile_suffix isBlank).isInfix
  rw [code, after?_eq_none_iff.mpr fun hpair => h (hpair.trans hinside)]
  rfl

/-- **What the reader sees of a header**: of each line the code in front of its first comment. -/
theorem code_layout {layout : List Line} {inComment : Bool} (h : Follows inComment layout)
    (hlegible : ∀ row ∈ layout.filterMap Line.row?, row.Legible) :
    code inComment (layout.map Line.text) = seen layout := by
  induction h with
  | nil => rfl
  | inside inner rest ih =>
    rw [List.map_cons, Line.text, code_inside inner, ih hlegible]
    rfl
  | closing inner proper rest ih =>
    rw [List.map_cons, Line.text, code_closing inner,
      code_row proper (hlegible _ (.head _)), ih fun row hrow => hlegible row (.tail _ hrow)]
    rfl
  | free proper rest ih =>
    rw [List.map_cons, Line.text, code_row proper (hlegible _ (.head _)),
      ih fun row hrow => hlegible row (.tail _ hrow)]
    rfl

end Header

end LightHeaders
