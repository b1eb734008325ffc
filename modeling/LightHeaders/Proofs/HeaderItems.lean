import Mathlib.Data.List.Chain
import LightHeaders.Proofs.HeaderForest
import LightHeaders.Proofs.HeaderLines
import LightHeaders.Proofs.PathParts

set_option autoImplicit false

/-! # The items of a header

Outside comments and lines for the preprocessor, a header is a row of prototypes, type declarations and
function definitions (`Header.Item`). The reader cuts this text at its semicolons, those inside braces
included, and knows no other end of a declaration. So a prototype behind the body of a function is lost
with the `}` in front of it, and a statement inside braces is read like one outside
(`Header.lowered`). Where neither happens, a header is read into the functions of its prototypes, in order
and nothing else; `Header.holdsBelow_read_items` says both, for every header whose comments the reader can
follow.
-/

namespace LightHeaders

namespace Text

theorem splitAt_append_getLast (sep : Char) (xs ys : List Char) : splitAt sep (xs ++ ys) =
    (splitAt sep xs).dropLast ++ splitAt sep ((splitAt sep xs).getLast (splitAt_ne_nil sep xs) ++ ys) := by
  have hxs := join_splitAt sep xs
  have hpieces := List.dropLast_append_getLast (splitAt_ne_nil sep xs)
  have hfree : ∀ piece ∈ (splitAt sep xs).dropLast, sep ∉ piece := fun piece hpiece =>
    not_mem_of_mem_splitAt sep xs piece ((List.dropLast_sublist _).subset hpiece)
  generalize (splitAt sep xs).dropLast = init, (splitAt sep xs).getLast (splitAt_ne_nil sep xs) = last at *
  rw [← hpieces] at hxs
  by_cases hinit : init = []
  · rw [hinit] at hxs ⊢
    rw [← hxs]
    rfl
  · rw [← hxs, join_concat _ hinit, List.append_assoc, List.append_assoc, List.singleton_append, splitAt_append,
      splitAt_join hinit hfree]

variable {cs : List Char}

theorem splitAt_append_of_not_mem {sep : Char} {front : List Char} (h : sep ∉ front) {piece : List Char}
    {pieces : List (List Char)} (hcs : splitAt sep cs = piece :: pieces) :
    splitAt sep (front ++ cs) = (front ++ piece) :: pieces := by
  induction front with
  | nil => exact hcs
  | cons c front ih =>
    rw [List.mem_cons, not_or] at h
    rw [List.cons_append, splitAt, if_neg (Ne.symm h.1), ih h.2]
    rfl

theorem mem_dropWhile_blank {c : Char} (hc : isBlank c = false) (h : c ∈ cs) : c ∈ cs.dropWhile isBlank := by
  rw [← List.takeWhile_append_dropWhile (p := isBlank) (l := cs)] at h
  refine (List.mem_append.mp h).resolve_left fun hblank => ?_
  rw [Line.gap_takeWhile cs c hblank] at hc
  cases hc

theorem mem_trim {c : Char} (hc : isBlank c = false) (h : c ∈ cs) : c ∈ trim cs :=
  List.mem_reverse.mpr (mem_dropWhile_blank hc (List.mem_reverse.mpr (mem_dropWhile_blank hc h)))

end Text

namespace Header

open Text

/-! ## Statements -/

/-- The prototype that a statement reads as. -/
def statement? (text : List Char) : Option Prototype := Prototype.parse? (trim text)

/-- The prototypes that the statements of a text read as; what stands behind the last semicolon is none. -/
def statements (code : List Char) : List Prototype := (splitAt ';' code).dropLast.filterMap statement?

theorem prototypes_eq_statements (source : String) :
    prototypes source = statements (code false (lines source.toList)) := by
  rw [prototypes, declarations, List.filterMap_map]
  rfl

theorem statements_of_not_mem {code : List Char} (h : ';' ∉ code) : statements code = [] := by
  rw [statements, splitAt_of_not_mem h]
  rfl

theorem statements_cons {front : List Char} (h : ';' ∉ front) (back : List Char) :
    statements (front ++ ';' :: back) = (statement? front).toList ++ statements back := by
  rw [statements, splitAt_append_cons h, List.dropLast_cons_of_ne_nil (splitAt_ne_nil ';' back),
    List.filterMap_cons]
  cases statement? front <;> rfl

theorem statement?_of_brace {text : List Char} (h : '\x7b' ∈ text ∨ '\x7d' ∈ text)
    : statement? text = none := by
  have hbrace : ((trim text).contains '\x7b' || (trim text).contains '\x7d') = true := by
    rw [Bool.or_eq_true, List.contains_iff_mem, List.contains_iff_mem]
    exact h.imp (mem_trim (by decide)) (mem_trim (by decide))
  rw [statement?, Prototype.parse?, if_pos hbrace]
  rfl

/-- The start of a declaration: nothing, or what is left of a definition. -/
structure Left (behind : Bool) (left : List Char) : Prop where
  free : ';' ∉ left
  brace : behind = true → '\x7d' ∈ left
  nil : behind = false → left = []

variable {behind : Bool} {left : List Char}

theorem Left.statements_cons (h : Left behind left) {text : List Char} (htext : ';' ∉ text)
    (back : List Char) : statements (left ++ (text ++ ';' :: back)) =
      (if behind then [] else (statement? text).toList) ++ statements back := by
  have hfree : ';' ∉ left ++ text := by
    rw [List.mem_append, not_or]
    exact ⟨h.free, htext⟩
  rw [← List.append_assoc, Header.statements_cons hfree]
  cases behind with
  | true =>
    rw [statement?_of_brace (.inr (List.mem_append_left _ (h.brace rfl)))]
    rfl
  | false =>
    rw [h.nil rfl]
    rfl

/-- What the statements inside braces read as: those between two semicolons, since the first one has the
opening brace in it and the last one the closing brace. -/
def inner (body : List Char) : List Prototype := (splitAt ';' body).dropLast.tail.filterMap statement?

/-- **Braces**: the statements inside are read, and what is left in front of the text behind has the closing
brace in it. -/
theorem Left.exists_statements_block (h : Left behind left) {front : List Char} (hfront : ';' ∉ front)
    (body back : List Char) :
    ∃ left', Left true left' ∧ statements (left ++ (front ++ '\x7b' :: (body ++ '\x7d' :: back))) =
      inner body ++ statements (left' ++ back) := by
  have hopening : ';' ∉ left ++ front ++ ['\x7b'] := by
    simpa using And.intro h.free hfront
  have hbrace : '\x7b' ∈ left ++ front ++ ['\x7b'] := by simp
  have htext : left ++ (front ++ '\x7b' :: (body ++ '\x7d' :: back)) =
      left ++ front ++ ['\x7b'] ++ body ++ '\x7d' :: back := by simp
  rw [htext]
  generalize left ++ front ++ ['\x7b'] = opening at hopening hbrace
  obtain ⟨piece, pieces, hbody⟩ := List.exists_cons_of_ne_nil (splitAt_ne_nil ';' body)
  have hpieces := splitAt_append_of_not_mem hopening hbody
  -- the first piece has the opening brace in it
  have hinner : (splitAt ';' (opening ++ body)).dropLast.filterMap statement? = inner body := by
    rw [inner, hpieces, hbody]
    cases pieces with
    | nil => rfl
    | cons next pieces =>
      rw [List.dropLast_cons_cons, List.dropLast_cons_cons, List.filterMap_cons,
        statement?_of_brace (.inl (List.mem_append_left _ hbrace))]
      rfl
  generalize hlast : (splitAt ';' (opening ++ body)).getLast (splitAt_ne_nil _ _) = last
  have hfree : ';' ∉ last := by
    rw [← hlast]
    exact not_mem_of_mem_splitAt _ _ _ (List.getLast_mem _)
  refine ⟨last ++ ['\x7d'], ⟨by simpa using hfree, by simp, nofun⟩, ?_⟩
  rw [statements, splitAt_append_getLast, hlast, List.dropLast_append_of_ne_nil (splitAt_ne_nil _ _),
    List.filterMap_append, hinner, List.append_assoc]
  rfl

/-! ## Items -/

/-- What a header declares. -/
inductive Item where
  /-- A function prototype. -/
  | prototype (p : Prototype) (text : List Char)
  /-- A type declaration without members. -/
  | type (text : List Char)
  /-- A type declaration with members in braces. -/
  | record (front members back : List Char)
  /-- A function definition. -/
  | definition (front body : List Char)

namespace Item

def text : Item → List Char
  | prototype _ text | type text => text ++ [';']
  | record front members back => front ++ '\x7b' :: (members ++ '\x7d' :: (back ++ [';']))
  | definition front body => front ++ '\x7b' :: (body ++ ['\x7d'])

/-- A prototype reads as one, and the semicolons of a declaration stand in braces or at its end. -/
def Proper : Item → Prop
  | prototype p text => ';' ∉ text ∧ statement? text = some p
  | type text => ';' ∉ text
  | record front _ back => ';' ∉ front ∧ ';' ∉ back
  | definition front _ => ';' ∉ front

def prototype? : Item → Option Prototype
  | prototype p _ => some p
  | _ => none

def isDefinition : Item → Bool
  | definition _ _ => true
  | _ => false

/-- Nothing but a prototype reads as one. -/
def Quiet : Item → Prop
  | prototype _ _ => True
  | type text => statement? text = none
  | record _ body _ | definition _ body => inner body = []

end Item

/-- The prototypes that items are read as, the first item directly behind a definition or not. -/
def lowered (behind : Bool) : List Item → List Prototype
  | [] => []
  | .prototype p _ :: items => (if behind then [] else [p]) ++ lowered false items
  | .type text :: items => (if behind then [] else (statement? text).toList) ++ lowered false items
  | .record _ members _ :: items => inner members ++ lowered false items
  | .definition _ body :: items => inner body ++ lowered true items

/-- **What items are read as**, item by item. -/
theorem statements_items {items : List Item} (h : ∀ item ∈ items, item.Proper) {rest : List Char}
    (hrest : ';' ∉ rest) {behind : Bool} {left : List Char} (hleft : Left behind left) :
    statements (left ++ (items.flatMap Item.text ++ rest)) = lowered behind items := by
  induction items generalizing behind left with
  | nil =>
    refine statements_of_not_mem ?_
    rw [List.flatMap_nil, List.nil_append, List.mem_append, not_or]
    exact ⟨hleft.free, hrest⟩
  | cons item items ih =>
    have hitem := h item (.head _)
    have hitems := fun {behind : Bool} {left : List Char} (hl : Left behind left) =>
      ih (fun i hi => h i (.tail _ hi)) hl
    have hnone : Left false [] := ⟨by simp, by simp, fun _ => rfl⟩
    rw [List.flatMap_cons]
    cases item with
    | prototype p text =>
      obtain ⟨hfree, hreads⟩ := hitem
      rw [lowered, ← hitems hnone, ← Option.toList_some, ← hreads, ← hleft.statements_cons hfree]
      simp [Item.text]
    | type text =>
      rw [lowered, ← hitems hnone, ← hleft.statements_cons hitem]
      simp [Item.text]
    | record front members back =>
      obtain ⟨left', hleft', hblock⟩ := hleft.exists_statements_block hitem.1 members
        (back ++ ';' :: (items.flatMap Item.text ++ rest))
      rw [hleft'.statements_cons hitem.2, if_pos rfl, List.nil_append] at hblock
      rw [lowered, ← hitems hnone, List.nil_append, ← hblock]
      simp [Item.text]
    | definition front body =>
      -- no `;` ends a definition, so what is left of it goes before the next item
      obtain ⟨left', hleft', hblock⟩ := hleft.exists_statements_block hitem body
        (items.flatMap Item.text ++ rest)
      rw [lowered, ← hitems hleft', ← hblock]
      simp [Item.text]

/-- Items that are read as they are meant: only prototypes read as prototypes, and none stands directly behind a
definition. -/
structure Tidy (items : List Item) : Prop where
  quiet : ∀ item ∈ items, item.Quiet
  apart : items.IsChain fun item next => item.isDefinition = true → next.prototype? = none

theorem Tidy.lowered_eq {items : List Item} (h : Tidy items)
    (hbehind : behind = true → ∀ item ∈ items.head?, item.prototype? = none) :
    lowered behind items = items.filterMap Item.prototype? := by
  induction items generalizing behind with
  | nil => rfl
  | cons item items ih =>
    have hquiet := h.quiet item (.head _)
    obtain ⟨hnext, hapart⟩ := List.isChain_cons.mp h.apart
    have hitems : Tidy items := ⟨fun i hi => h.quiet i (.tail _ hi), hapart⟩
    have hrest : lowered false items = items.filterMap Item.prototype? := ih hitems nofun
    cases item with
    | prototype p text =>
      have hfirst : behind = false := by
        cases behind with
        | false => rfl
        | true => cases hbehind rfl _ rfl
      rw [lowered, hfirst, hrest]
      rfl
    | type text =>
      have hnone : statement? text = none := hquiet
      rw [lowered, hnone, hrest]
      cases behind <;> rfl
    | record front members back =>
      have hinner : inner members = [] := hquiet
      rw [lowered, hinner, hrest]
      rfl
    | definition front body =>
      have hinner : inner body = [] := hquiet
      rw [lowered, hinner, ih hitems fun _ next hmem => hnext next hmem rfl]
      rfl

/-! ## Headers -/

/-- Without code behind comments, what the reader sees is all the code. -/
theorem outside_eq_seen {layout : List Line} (h : ∀ row ∈ layout.filterMap Line.row?, row.Bare) :
    outside layout = seen layout := by
  have hrow : ∀ row : Row, row.Bare → row.outside = row.seen := by
    intro row hbare
    cases row with
    | directive gap text ending => rfl
    | code text ending =>
      have hcode : ending.code = [] := hbare
      rw [Row.outside, hcode, List.append_nil]
  exact List.flatMap_congr fun row hmem => hrow row (h row hmem)

/-- **What is read from a header.** The lines of every header have a layout, as C++ reads them. Take one in
which the reader can tell the lines that start inside a comment. If what it sees, the code in front of the
first comment of each line, is a row of items, then it reads `lowered`: a prototype directly behind a
definition is lost, and what stands between two semicolons inside braces is read too. If no code stands
behind a comment on its line, and the items are tidy, the functions read are those of the prototypes
outside comments, braces and lines for the preprocessor, in order, and nothing else. -/
theorem holdsBelow_read_items (source : String) (f : Forest) :
    (∃ layout, lines source.toList = layout.map Line.text ∧ Follows false layout) ∧
    ∀ layout, lines source.toList = layout.map Line.text → Follows false layout →
      (∀ row ∈ layout.filterMap Line.row?, row.Legible) → ∀ (items : List Item) (rest : List Char),
      (∀ item ∈ items, item.Proper) → ';' ∉ rest →
      (seen layout = items.flatMap Item.text ++ rest →
        (read source f).1.HoldsBelow f.size ((lowered false items).map Prototype.sketch)) ∧
      ((∀ row ∈ layout.filterMap Line.row?, row.Bare) → outside layout = items.flatMap Item.text ++ rest →
        Tidy items →
        (read source f).1.HoldsBelow f.size ((items.filterMap Item.prototype?).map Prototype.sketch)) := by
  refine ⟨exists_layout false _, fun layout hlines hlayout hlegible items rest hitems hrest => ?_⟩
  have hnone : Left false [] := ⟨by simp, nofun, fun _ => rfl⟩
  have hread : seen layout = items.flatMap Item.text ++ rest →
      (read source f).1.HoldsBelow f.size ((lowered false items).map Prototype.sketch) := by
    intro hseen
    have hprototypes : prototypes source = lowered false items := by
      rw [prototypes_eq_statements, hlines, code_layout hlayout hlegible, hseen]
      exact statements_items hitems hrest hnone
    rw [← hprototypes]
    exact holdsBelow_read source f
  refine ⟨hread, fun hbare houtside htidy => ?_⟩
  have hlowered : lowered false items = items.filterMap Item.prototype? := htidy.lowered_eq nofun
  rw [← hlowered]
  exact hread ((outside_eq_seen hbare).symm.trans houtside)

/-- Comments of all sorts around prototypes, a definition and a type declaration. -/
theorem holdsBelow_read_items_mixed :
    (read "#if 1 // x\nint f(int a,\n int b); /* c; */ // d\n/* int n(void);\n//; */ void g(void);\nint k() \x7b int y; return y; \x7d\nenum e \x7b A \x7d;\nint *h();\n"
      {}).1.HoldsBelow 0 [Prototype.sketch ⟨"f", "int", [("a", "int"), ("b", "int")]⟩,
        Prototype.sketch ⟨"g", "void", []⟩, Prototype.sketch ⟨"h", "int*", []⟩] := by
  have hlayout : Follows false [.free (.directive [] "if 1 ".toList (.remark " x".toList)),
      .free (.code "int f(int a,".toList .none),
      .free (.code " int b); ".toList (.closed " c; ".toList [' '] (.remark " d".toList))),
      .free (.code [] (.opening " int n(void);".toList)),
      .closing "//; ".toList (.code " void g(void);".toList .none),
      .free (.code "int k() \x7b int y; return y; \x7d".toList .none),
      .free (.code "enum e \x7b A \x7d;".toList .none), .free (.code "int *h();".toList .none)] := by
    refine .free ⟨by simp [LightHeaders.Line.Gap], ⟨by decide +kernel, by decide +kernel,
      .inr (by decide +kernel)⟩, trivial⟩ ?_
    refine .free ⟨by decide +kernel, ⟨by decide +kernel, by decide +kernel, .inl rfl⟩, trivial⟩ ?_
    refine .free ⟨by decide +kernel, ⟨by decide +kernel, by decide +kernel, .inr (by decide +kernel)⟩,
      by decide +kernel, ⟨by decide +kernel, by decide +kernel, .inr (by decide +kernel)⟩, trivial⟩ ?_
    refine .free ⟨by decide +kernel, ⟨by decide +kernel, by decide +kernel, .inr (by decide +kernel)⟩,
      show ¬['*', '/'] <:+: _ by decide +kernel⟩ ?_
    refine .closing (by decide +kernel) ⟨by decide +kernel, ⟨by decide +kernel, by decide +kernel, .inl rfl⟩,
      trivial⟩ ?_
    refine .free ⟨by decide +kernel, ⟨by decide +kernel, by decide +kernel, .inl rfl⟩, trivial⟩ ?_
    refine .free ⟨by decide +kernel, ⟨by decide +kernel, by decide +kernel, .inl rfl⟩, trivial⟩ ?_
    exact .free ⟨by decide +kernel, ⟨by decide +kernel, by decide +kernel, .inl rfl⟩, trivial⟩ .nil
  refine ((holdsBelow_read_items _ {}).2 _ (by decide +kernel) hlayout ?_
    [.prototype ⟨"f", "int", [("a", "int"), ("b", "int")]⟩ "int f(int a, int b)".toList,
      .prototype ⟨"g", "void", []⟩ "   void g(void)".toList,
      .definition " int k() ".toList " int y; return y; ".toList,
      .record " enum e ".toList " A ".toList [],
      .prototype ⟨"h", "int*", []⟩ " int *h()".toList] [' '] ?_ (by decide +kernel)).2 ?_
    (by decide +kernel) ⟨?_, by decide +kernel⟩
  · simp only [Line.row?, List.filterMap_cons, List.filterMap_nil, List.forall_mem_cons]
    exact ⟨rfl, trivial, ⟨by decide +kernel, by decide +kernel, rfl⟩, (by decide +kernel : List.head? _ ≠ _),
      trivial, trivial, trivial, trivial, by simp⟩
  · simp only [List.forall_mem_cons]
    exact ⟨⟨by decide +kernel, by decide +kernel⟩, ⟨by decide +kernel, by decide +kernel⟩,
      (by decide +kernel : ';' ∉ _), ⟨by decide +kernel, by decide +kernel⟩,
      ⟨by decide +kernel, by decide +kernel⟩, by simp⟩
  · simp only [Line.row?, List.filterMap_cons, List.filterMap_nil, List.forall_mem_cons]
    exact ⟨(by decide +kernel : List.getLast? _ ≠ _), rfl, (by decide +kernel : Ending.code _ = []), rfl, rfl,
      rfl, rfl, rfl, by simp⟩
  · simp only [List.forall_mem_cons]
    exact ⟨trivial, trivial, (by decide +kernel : inner _ = []), (by decide +kernel : inner _ = []), trivial,
      by simp⟩

/-- Prototypes that are lost behind a comment on their line, behind a comment with `//` in it and behind a
definition, and members and types that are read as functions. -/
theorem prototypes_read_amiss :
    prototypes "/* x */ int f(void);\n" = [] ∧
    prototypes "int f(void); /* see http://x */\nint g(void);\n" = [⟨"f", "int", []⟩] ∧
    prototypes "int f(void) \x7b return 1; \x7d\nint g(void);\n" = [] ∧
    prototypes "struct s \x7b int x; int m(int); int y; \x7d;\n" = [⟨"m", "int", [("arg0", "int")]⟩] ∧
    prototypes "typedef int (*cb)(int);\n" = [⟨"int", "typedef", [("arg0", "*cb)(int")]⟩] := by
  decide +kernel

end Header

end LightHeaders
