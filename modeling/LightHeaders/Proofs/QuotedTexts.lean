import LightHeaders.Proofs.FittedLiterals
import LightHeaders.Proofs.LinePhrases
import LightHeaders.Proofs.OutlineRoundTrip
import LightHeaders.Proofs.Printer

set_option autoImplicit false

/-! # Texts between quotes

A text is written between double quotes where a value is made into a string and where a header is included
(`Literal.quoted`). Whatever the text, and whatever stands behind it, the scanner of an outline takes exactly
what was written (`Literal.closeQuote?_quoted`), so the two agree on where a literal ends.

A value that was made to fit its type is still one word or one literal of its line, so an outline that holds
it can be written and read again (`Build.holdsBelow_of_fitChild`).
-/

namespace LightHeaders

open Text Literal Build

namespace Literal

/-! ## Writing and scanning -/

/-- The literal that stands for a text. -/
def quoted (s : String) : List Char := '"' :: ((escape s).toList ++ ['"'])

theorem toList_escape (s : String) : (escape s).toList = s.toList.flatMap escapeChar :=
  String.toList_ofList

/-- No character is written as a line feed or a tab. -/
theorem not_mem_escapeChar (c : Char) : '\n' ∉ escapeChar c ∧ '\t' ∉ escapeChar c := by
  unfold escapeChar
  split
  · decide
  · decide
  · decide
  · decide
  · next hfeed htab =>
    rw [List.mem_singleton, List.mem_singleton]
    exact ⟨fun h => hfeed h.symm, fun h => htab h.symm⟩

/-- **A literal stays on its line.** -/
theorem not_mem_escape (s : String) : '\n' ∉ (escape s).toList ∧ '\t' ∉ (escape s).toList := by
  rw [toList_escape]
  constructor
  · intro h
    obtain ⟨c, -, hc⟩ := List.mem_flatMap.mp h
    exact (not_mem_escapeChar c).1 hc
  · intro h
    obtain ⟨c, -, hc⟩ := List.mem_flatMap.mp h
    exact (not_mem_escapeChar c).2 hc

theorem not_mem_quoted (s : String) : '\n' ∉ quoted s ∧ '\t' ∉ quoted s := by
  obtain ⟨hfeed, htab⟩ := not_mem_escape s
  constructor
  · simpa [quoted] using hfeed
  · simpa [quoted] using htab

theorem quoted_escape (s : String) : Line.Quoted '"' (escape s).toList := by
  rw [toList_escape]
  exact quoted_escapeChars s.toList

/-- **The scanner stops at the quote that was written last**, whatever stands behind it. -/
theorem closeQuote?_quoted (s : String) (rest : List Char) :
    Line.closeQuote? '"' ((escape s).toList ++ '"' :: rest) = some ((escape s).toList ++ ['"'], rest) :=
  Line.closeQuote?_append rfl (quoted_escape s) rest

theorem isName_quoted (s : String) (rest : List Char) : Line.IsName rest (quoted s) :=
  .quoted rfl (quoted_escape s)

theorem isLiteral_quoted (s : String) : Line.IsLiteral (quoted s) :=
  ⟨'"', (escape s).toList, rfl, rfl, quoted_escape s, (not_mem_escape s).1⟩

variable {cs : List Char} {s : String}

/-- What is quoted can be told from the text that starts with it. -/
theorem quoted_append_inj {t : String} {rest rest' : List Char}
    (h : quoted s ++ rest = quoted t ++ rest') : s = t ∧ rest = rest' := by
  obtain ⟨hname, hrest⟩ := (isName_quoted s rest).append_inj (isName_quoted t rest') h
  have hbody := List.append_cancel_right (List.cons.inj hname).2
  exact ⟨escape_injective (String.toList_inj.mp hbody), hrest⟩

/-! ## What a value is written as -/

theorem isBlank_of_isDigit {c : Char} (h : c.isDigit = true) : isBlank c = false := by
  have hrange : 48 ≤ c.toNat ∧ c.toNat ≤ 57 := by
    rw [Char.isDigit, Bool.and_eq_true, decide_eq_true_eq, decide_eq_true_eq] at h
    exact h
  -- digits stand between the space and the first blank beyond ASCII
  have hfeeds : ¬c.toNat ≤ 0xD := by omega
  have hspace : ¬c.toNat ≤ 0x20 := by omega
  have hnext : c.toNat < 0x85 := by omega
  simp [isBlank, blankRanges, Ranges.holds, hfeeds, hspace, hnext]

theorem Digits.solid (h : Digits cs) : Solid cs :=
  fun c hc => isBlank_of_isDigit (h c hc)

variable {kind : LiteralKind}

theorem Denotes.solid {q : ℚ} (h : Denotes kind cs q) : Solid cs := by
  have hsign : ∀ negative, Solid (sign negative) := by
    intro negative
    cases negative
    · exact Solid.nil
    · simp [Solid, sign, show isBlank '-' = false by decide]
  have hsuffix : ∀ suffix : List Char, suffix = [] ∨ suffix = ['f'] → Solid suffix := by
    rintro suffix (rfl | rfl)
    · exact Solid.nil
    · simp [Solid, show isBlank 'f' = false by decide]
  cases h with
  | yes => exact Line.solid_true
  | no =>
    have hfalse : "false".toList.all (fun c => !isBlank c) = true := by rfl
    intro c hc
    simpa using List.all_eq_true.mp hfalse c hc
  | whole negative hdigits _ =>
    intro c hc
    rcases List.mem_append.mp hc with hc | hc
    · exact hsign negative c hc
    · exact hdigits.solid c hc
  | point negative hwhole hfraction _ hend =>
    intro c hc
    simp only [List.mem_append, List.mem_cons] at hc
    rcases hc with hc | hc | rfl | hc | hc
    · exact hsign negative c hc
    · exact hwhole.solid c hc
    · decide
    · exact hfraction.solid c hc
    · exact hsuffix _ hend c hc

theorem Denotes.isPlainName {q : ℚ} (h : Denotes kind cs q) : Line.IsPlainName cs := by
  refine ⟨h.solid, fun c hc => ?_⟩
  by_cases hkind : kind = .bool
  · subst hkind
    cases h with
    | yes | no =>
      cases hc
      decide
  · obtain ⟨d, hd, hstart⟩ := h.head hkind
    rw [hc] at hd
    cases hd
    rcases hstart with rfl | rfl | hdigit
    · decide
    · decide
    · refine ⟨?_, ?_, ?_⟩
      · rintro rfl
        exact absurd hdigit (by decide)
      · rintro rfl
        exact absurd hdigit (by decide)
      · by_contra hquote
        rw [Bool.not_eq_false, Line.isQuote, Bool.or_eq_true, decide_eq_true_eq, decide_eq_true_eq] at hquote
        rcases hquote with rfl | rfl
        · exact absurd hdigit (by decide)
        · exact absurd hdigit (by decide)

/-- **A value that is written anew is one word or one literal**, if it was one before. -/
theorem isName_recast (hkind : reading s = .value kind)
    (hs : s = "" ∨ Line.IsPlainName s.toList ∨ Line.IsLiteral s.toList) (required : LiteralKind) :
    recast s (some kind) (some required) = "" ∨
      Line.IsPlainName (recast s (some kind) (some required)).toList ∨
      Line.IsLiteral (recast s (some kind) (some required)).toList := by
  by_cases hsame : kind = required
  · subst hsame
    rwa [recast_self]
  cases hconverts : kind.convertsTo required with
  | false => rwa [recast_of_not_convertsTo hconverts]
  | true =>
    by_cases hstring : required = .string
    · subst hstring
      rw [recast_string hsame, String.toList_ofList, ← toList_escape]
      exact .inr (.inr (isLiteral_quoted s))
    · have hnumeric : required.isNumeric = true := by
        simp only [LiteralKind.convertsTo, hsame, hstring, decide_false, Bool.false_or,
          Bool.and_eq_true] at hconverts
        exact hconverts.2
      obtain ⟨q, hq⟩ := exists_denotes (reading_recast hkind hconverts) hnumeric
      exact .inr (.inl hq.isPlainName)

end Literal

/-! ## Renaming a child of an outline -/

namespace Forest

variable {f : Forest} {child : InstructionId} {name : String}

theorem size_setName : (f.setName child name).size = f.size := f.size_modify child _

variable {id : InstructionId}

theorem get_setName_of_ne (hlt : id < f.size) (hne : child ≠ id) :
    (f.setName child name).get id = f.get id := by
  rw [setName, get_modify f child _ hlt, if_neg hne]

theorem get_setName_self (hlt : child < f.size) :
    (f.setName child name).get child = { f.get child with name } := by
  rw [setName, get_modify f child _ hlt, if_pos rfl]

theorem children_setName (hlt : id < f.size) :
    ((f.setName child name).get id).children = (f.get id).children := by
  by_cases hne : child = id
  · subst hne
    rw [get_setName_self hlt]
  · rw [get_setName_of_ne hlt hne]

end Forest

theorem Wording.Valid.rename {w : Wording} (h : w.Valid) {name : String}
    (hname : name = "" ∨ Line.IsPlainName name.toList ∨ Line.IsLiteral name.toList) :
    ({ w with name } : Wording).Valid :=
  { h with name := hname }

namespace Forest

variable {f : Forest} {child : InstructionId} {name : String}

mutual

/-- A tree in which an instruction is renamed is a valid tree again, if a valid name of it becomes a valid
name. -/
theorem Holds.setName (hname : (f.get child).wording.Valid →
    name = "" ∨ Line.IsPlainName name.toList ∨ Line.IsLiteral name.toList) :
    ∀ {id : InstructionId} {t : Sketch}, f.Holds id t → t.Valid →
      ∃ t', (f.setName child name).Holds id t' ∧ t'.Valid
  | id, .node wording children, ht, hvalid => by
    rw [Holds] at ht
    rw [Sketch.Valid] at hvalid
    obtain ⟨hlt, hwording, hchildren⟩ := ht
    obtain ⟨children', hchildren', hvalid'⟩ := HoldsAll.setName hname hchildren hvalid.2
    refine ⟨.node ((f.setName child name).get id).wording children', ?_, ?_⟩
    · rw [Holds, children_setName hlt]
      exact ⟨by rwa [size_setName], rfl, hchildren'⟩
    · rw [Sketch.Valid]
      refine ⟨?_, hvalid'⟩
      rw [← hwording] at hvalid
      by_cases hne : child = id
      · subst hne
        rw [get_setName_self hlt]
        exact hvalid.1.rename (hname hvalid.1)
      · rw [get_setName_of_ne hlt hne]
        exact hvalid.1

theorem HoldsAll.setName (hname : (f.get child).wording.Valid →
    name = "" ∨ Line.IsPlainName name.toList ∨ Line.IsLiteral name.toList) :
    ∀ {ids : List InstructionId} {ts : List Sketch}, f.HoldsAll ids ts → Sketch.AllValid ts →
      ∃ ts', (f.setName child name).HoldsAll ids ts' ∧ Sketch.AllValid ts'
  | [], ts, hts, _ => ⟨[], by rw [HoldsAll]; trivial, by rw [Sketch.AllValid]; trivial⟩
  | id :: ids, [], hts, _ => by simp [HoldsAll] at hts
  | id :: ids, t :: ts, hts, hvalid => by
    rw [HoldsAll] at hts
    rw [Sketch.AllValid] at hvalid
    obtain ⟨t', ht', hvalid₁⟩ := Holds.setName hname hts.1 hvalid.1
    obtain ⟨ts', hts', hvalid₂⟩ := HoldsAll.setName hname hts.2 hvalid.2
    refine ⟨t' :: ts', ?_, ?_⟩
    · rw [HoldsAll]
      exact ⟨ht', hts'⟩
    · rw [Sketch.AllValid]
      exact ⟨hvalid₁, hvalid₂⟩

end

/-- **Writing a value anew leaves a valid outline.** -/
theorem HoldsBelow.setChildName {root source : InstructionId} {pos : Nat} {ts : List Sketch}
    (h : f.HoldsBelow root ts) (hvalid : Sketch.AllValid ts) {old : String}
    (hold : f.childName? source pos = some old)
    (hname : old = "" ∨ Line.IsPlainName old.toList ∨ Line.IsLiteral old.toList →
      name = "" ∨ Line.IsPlainName name.toList ∨ Line.IsLiteral name.toList) :
    ∃ ts', (f.setChildName source pos name).HoldsBelow root ts' ∧ Sketch.AllValid ts' := by
  obtain ⟨i, hi, rfl⟩ := Option.map_eq_some_iff.mp hold
  obtain ⟨child, hchild, rfl⟩ := Option.map_eq_some_iff.mp hi
  obtain ⟨ts', hts', hvalid'⟩ := HoldsAll.setName (fun hw => hname hw.name) h.2 hvalid
  refine ⟨ts', ?_, hvalid'⟩
  rw [Forest.setChildName, hchild]
  refine ⟨by rw [size_setName]; exact h.1, ?_⟩
  rwa [children_setName h.1]

end Forest

namespace Build

variable {ws ws' : Workspace} {scope : ComponentId} {source : InstructionId} {pos : Nat}
  {text request : String} {kind : LiteralKind}

/-- **A value that was made to fit can be written and read again.** -/
theorem holdsBelow_of_fitChild (htext : ws.forest.childName? source pos = some text)
    (hkind : reading text = .value kind) (hok : fitChild scope request source pos ws = .ok () ws')
    {root : InstructionId} {ts : List Sketch} (h : ws.forest.HoldsBelow root ts)
    (hvalid : Sketch.AllValid ts) :
    ∃ ts', ws'.forest.HoldsBelow root ts' ∧ Sketch.AllValid ts' := by
  obtain ⟨-, required, -, rfl⟩ := exists_required_of_fitChild htext hkind hok
  split
  · exact ⟨ts, h, hvalid⟩
  · exact h.setChildName hvalid htext fun hname => isName_recast hkind hname required

/-! ## Include lines -/

variable {id : ComponentId}

theorem text_write (hid : id < ws.size) (text : String) :
    (ws.modify id fun c => { c with buffer := c.buffer.push text }).text id = ws.text id ++ text := by
  rw [Workspace.text, ws.component_modify id _ hid, if_pos rfl]
  exact Buffer.text_push ..

theorem text_updateFile (file : ComponentId) (g : SourceFile → SourceFile) (id : ComponentId) :
    (ws.modify file fun c => { c with kind := c.kind.mapFile g }).text id = ws.text id := by
  rw [Workspace.text, ws.component_modify_eq, Workspace.text]
  split <;> rfl

theorem endLine_eq (hid : id < ws.size) :
    ∃ line ws', endLine id false ws = .ok line ws' ∧ ws'.text id = ws.text id ++ "\n" := by
  let ws₁ := ws.modify id fun c => { c with buffer := c.buffer.push "\n" }
  have hwrite : write id "\n" ws = .ok () ws₁ := rfl
  rw [endLine, bind_of_ok hwrite, bind_get]
  cases hfile : ws₁.fileOf? id with
  | none => exact ⟨0, ws₁, rfl, text_write hid "\n"⟩
  | some file =>
    refine ⟨_, _, rfl, ?_⟩
    rw [text_updateFile, text_write hid]

theorem writePlainLine_eq (hid : id < ws.size) (line : String) :
    ∃ ws', writePlainLine id line ws = .ok () ws' ∧ ws'.text id = ws.text id ++ line ++ "\n" := by
  let ws₁ := ws.modify id fun c => { c with buffer := c.buffer.push line }
  have hwrite : write id line ws = .ok () ws₁ := rfl
  have hid₁ : id < ws₁.size := by rwa [Workspace.size_modify]
  obtain ⟨number, ws₂, hend, htext⟩ := endLine_eq hid₁
  refine ⟨ws₂, ?_, by rw [htext, text_write hid]⟩
  rw [writePlainLine, bind_of_ok hwrite]
  exact bind_of_ok hend

theorem includeWith_eq {header : ComponentId → Build String} {file : ComponentId} {path : String}
    {ws₁ : Workspace} (hpath : headerAroundWith header id ws = .ok path ws₁) (hfile : file < ws₁.size)
    (hnew : (ws₁.component file).file?.any (·.included.contains path) = false)
    (hreader : ws₁.readers.contains .cpp = true) :
    ∃ ws₂, includeWith header file id ws = .ok path ws₂ ∧
      ws₂.text file = ws₁.text file ++ (Workspace.includeLine path).text ++ "\n" := by
  have hneed : needReader .cpp ws₁ = .ok () ws₁ := by
    rw [needReader, bind_get, hreader]
    rfl
  obtain ⟨ws₂, hline, htext⟩ := writePlainLine_eq hfile (Workspace.includeLine path).text
  refine ⟨ws₂.modify file fun c =>
    { c with kind := c.kind.mapFile fun f => { f with included := f.included ++ [path] } }, ?_, ?_⟩
  · rw [includeWith, bind_of_ok hpath, bind_component, hnew, if_neg Bool.false_ne_true, bind_of_ok hneed]
    exact bind_of_ok hline
  · rwa [text_updateFile]

theorem toList_includeLine (path : String) :
    (Workspace.includeLine path).text.toList = "#include ".toList ++ quoted path := by
  simp [Workspace.includeLine, quoted, String.toList_append]

end Build

namespace Literal

/-- **Writing a text between quotes and scanning it agree.** The literal for a text stays on its line, is
taken off whatever it stands in front of as it was written, and tells the text. So a value that was made
to fit stays one literal when its outline is written and read again, and the line that includes a header
tells its path. -/
theorem quoted_scans_back (s : String) (rest : List Char) :
    ('\n' ∉ quoted s ∧ '\t' ∉ quoted s) ∧
    (Line.closeQuote? '"' ((quoted s).tail ++ rest) = some ((quoted s).tail, rest) ∧
      Line.parseName (quoted s ++ rest) = .ok (quoted s, rest)) ∧
    unescape (escape s).toList = s.toList ∧
    Function.Injective escape ∧
    (∀ kind, kind ≠ .string → recast s (some kind) (some .string) = String.ofList (quoted s)) ∧
    (∀ w : Wording, ({ w with name := "" } : Wording).Valid →
      let line := ({ w with name := String.ofList (quoted s) } : Wording).instruction
      Line.parse (Line.render line) = .ok line) ∧
    (∀ (ws ws' : Workspace) (scope : ComponentId) (request : String) (source : InstructionId) (pos : Nat)
      (kind : LiteralKind) (root : InstructionId) (ts : List Sketch),
      ws.forest.childName? source pos = some s → reading s = .value kind →
      Build.fitChild scope request source pos ws = .ok () ws' →
      ws.forest.HoldsBelow root ts → Sketch.AllValid ts →
      ∃ ts', ws'.forest.HoldsBelow root ts' ∧ ∃ g r,
        Outline.parse (Outline.render ws'.forest root) {} = (g, .ok r) ∧ g.HoldsBelow r ts') ∧
    (∀ (header : ComponentId → Build String) (ws ws₁ : Workspace) (file id : ComponentId),
      Build.headerAroundWith header id ws = .ok s ws₁ → file < ws₁.size →
      (ws₁.component file).file?.any (·.included.contains s) = false →
      ws₁.readers.contains .cpp = true →
      ∃ ws₂, Build.includeWith header file id ws = .ok s ws₂ ∧
        ws₂.text file = ws₁.text file ++ (Workspace.includeLine s).text ++ "\n") ∧
    '\n' ∉ (Workspace.includeLine s).text.toList ∧
    ∀ (path : String) (rest' : List Char),
      (Workspace.includeLine s).text.toList ++ rest = (Workspace.includeLine path).text.toList ++ rest' →
        s = path ∧ rest = rest' := by
  refine ⟨not_mem_quoted s, ⟨?_, (isName_quoted s rest).parseName⟩, ?_, escape_injective, ?_, ?_, ?_, ?_, ?_, ?_⟩
  · rw [quoted, List.tail_cons, List.append_assoc]
    exact closeQuote?_quoted s rest
  · rw [toList_escape, unescape_escapeChars]
  · intro kind hkind
    rw [recast_string hkind, quoted, toList_escape]
  · intro w hw
    refine Line.parse_render (hw.rename (.inr (.inr ?_)))
    rw [String.toList_ofList]
    exact isLiteral_quoted s
  · intro ws ws' scope request source pos kind root ts htext hkind hok hholds hvalid
    obtain ⟨ts', hholds', hvalid'⟩ := holdsBelow_of_fitChild htext hkind hok hholds hvalid
    exact ⟨ts', hholds', Outline.parse_render_of_holds hholds' hvalid'⟩
  · intro header ws ws₁ file id hpath hfile hnew hreader
    exact includeWith_eq hpath hfile hnew hreader
  · rw [toList_includeLine, List.mem_append, not_or]
    exact ⟨by decide, (not_mem_quoted s).1⟩
  · intro path rest' h
    rw [toList_includeLine, toList_includeLine, List.append_assoc, List.append_assoc] at h
    exact quoted_append_inj (List.append_cancel_left h)

/-- A character literal with a quote and a backslash where a string is asked for. -/
theorem quoted_scans_back_char :
    let s := "'\"\\\\'"
    let source := "declare x : string\n    value '\"\\\\'\n"
    let ws : Workspace := { forest := (Outline.parse source {}).1 }
    let ws' := (Build.fitChild 0 "string" 1 0).after ws
    ws.forest.childName? 1 0 = some s ∧ reading s = .value .char ∧
      ws'.forest.childName? 1 0 = some (String.ofList (quoted s)) ∧
      Line.parseName (quoted s ++ ['"', '\\']) = .ok (quoted s, ['"', '\\']) ∧
      ∃ ts', ws'.forest.HoldsBelow 0 ts' ∧ ∃ g r,
        Outline.parse (Outline.render ws'.forest 0) {} = (g, .ok r) ∧ g.HoldsBelow r ts' := by
  intro s source ws ws'
  have htext : ws.forest.childName? 1 0 = some s := by decide +kernel
  have hkind : reading s = .value .char := by decide +kernel
  obtain ⟨⟨⟩, hok⟩ : ∃ a, Build.fitChild 0 "string" 1 0 ws = .ok a ws' := ok_of_succeeds (by decide +kernel)
  have hread : Outline.parse source {} = (ws.forest, .ok 0) := Prod.ext rfl (by decide +kernel)
  obtain ⟨ts, hholds, hvalid⟩ := Outline.holdsBelow_of_parse hread
  obtain ⟨-, ⟨-, hscan⟩, -, -, -, -, hcoerced, -⟩ := quoted_scans_back s ['"', '\\']
  exact ⟨htext, hkind, by decide +kernel, hscan,
    hcoerced ws ws' 0 "string" 1 0 .char 0 ts htext hkind hok hholds hvalid⟩

end Literal

end LightHeaders
