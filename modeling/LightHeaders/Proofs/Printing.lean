import LightHeaders.Proofs.Emitting
import LightHeaders.Proofs.Inline

set_option autoImplicit false

/-! # Writing bodies as the printer says

With all files loaded, a component is written just as the printer prints it, and the lines it counts
are the lines of its text. What is written before it starts is empty for everything inline in it;
what is not inline in it keeps its text.

The first part is about spelling: each piece of text is the one of the printer, and at most libraries
are noted. Then come single lines, components by their kinds, and whole components by induction on
the levels (`printsAs_renderWithin`).
-/

namespace LightHeaders

open Text Workspace

namespace Build

/-! ## Spelling -/

section Spelling

variable {ws : Workspace}

variable {P : Change.Class}

theorem runs_load_of_loaded (hl : ws.Loaded) (id : ComponentId) :
    Runs P (load id) ws fun _ ws' => ws' = ws := by
  intro _
  rw [load_of_loaded hl]
  exact ⟨.refl P ws, rfl⟩

/-- Where work ends with the spelling of a target. -/
theorem runs_spelling (ws : Workspace) {ws' : Workspace} (hb : ws'.bare = ws.bare) (t : Target) :
    Runs P (do return (← get).spelling t) ws' fun s _ => s = ws.spelling t := by
  refine .get fun _ => .pure ?_
  rw [spelling_of_bare hb]

theorem runs_cppType (hl : ws.Loaded) (scope : ComponentId) (type? : Option String) :
    Runs Notes (cppType scope type?) ws fun s _ => ws.typeText scope type? = some s := by
  cases type? with
  | none => exact .pure rfl
  | some type =>
    refine .of_sound fun hs => .bind runs_languageFor ?_
    rintro _ ws - - ⟨rfl, rfl⟩
    rw [typeText]
    cases (ws.languageAt scope).builtin? type with
    | some b => exact .pure rfl
    | none =>
      refine .bind (runs_componentNamed_of_loaded hl scope fun _ _ _ => .library _ _) ?_
      rintro target ws₁ _ hreach ⟨ht, _⟩
      refine (runs_spelling _ (hreach.bare_of_notes hs) _).weaken ?_
      rintro s _ - - rfl
      rw [ht]
      rfl

theorem runs_cppValue (hl : ws.Loaded) (scope : ComponentId) (source : InstructionId) (pos : Nat) :
    Runs Notes (cppValue scope source pos) ws fun s _ => ws.valueText scope source pos = some s := by
  refine .of_sound fun hs => .get fun _ => ?_
  rw [valueText]
  cases ws.forest.childName? source pos with
  | none => exact .pure rfl
  | some text =>
    refine .bind runs_discard_languageFor ?_
    rintro _ ws - - rfl
    dsimp only
    refine .ite (fun hname => ?_) fun hname => .pure (by rw [if_neg hname])
    refine .bind (runs_targetNamed_of_loaded hl scope fun _ _ _ => .library _ _) ?_
    rintro target ws₁ _ hreach ⟨ht, _⟩
    refine (runs_spelling _ (hreach.bare_of_notes hs) _).weaken ?_
    rintro s _ - - rfl
    rw [if_pos hname, ht]
    rfl

theorem runs_cppTarget (hl : ws.Loaded) (scope : ComponentId) (target? : Option Target)
    (name : String) : Runs Notes (cppTarget scope target? name) ws fun s _ =>
      ws.targetText scope target? name = some s := by
  refine .of_sound fun hs => ?_
  rw [targetText]
  cases target? with
  | some target =>
    refine (runs_spelling ws rfl target).weaken ?_
    rintro s _ - - rfl
    rfl
  | none =>
    refine .bind (runs_targetNamed_of_loaded hl scope fun _ _ _ => .library _ _) ?_
    rintro target ws₁ _ hreach ⟨ht, _⟩
    refine (runs_spelling _ (hreach.bare_of_notes hs) target).weaken ?_
    rintro s _ - - rfl
    rw [ht]
    rfl

theorem runs_cppStatement (hl : ws.Loaded) (id : ComponentId) (source : InstructionId)
    (o : Operation) : Runs Notes (cppStatement id source o) ws fun s _ =>
      ws.statementText id source o = some s := by
  refine .of_sound fun hs => ?_
  have hvalue : ∀ {ws₁ : Workspace}, ws₁.bare = ws.bare → ∀ pos, Runs Notes (cppValue id source pos) ws₁
      fun s _ => ws.valueText id source pos = some s := by
    intro ws₁ hb pos
    have h := runs_cppValue (hl.of_bare hb) id source pos
    rwa [valueText_of_bare hb] at h
  unfold cppStatement statementText
  cases o.action with
  | call callee =>
    refine .bind (runs_cppTarget hl id o.target? callee) fun function ws₁ hs₁ hreach₁ hf => ?_
    have hb₁ := hreach₁.bare_of_notes hs
    refine .instruction fun _ => ?_
    rw [(alike_of_bare hb₁).children_eq]
    refine .bind (.mapM fun pos _ ws₂ _ hreach₂ =>
      hvalue ((hreach₂.bare_of_notes hs₁).trans hb₁) pos) fun arguments _ _ _ ha => ?_
    refine .pure ?_
    dsimp only
    rw [hf, Option.bind_eq_bind, Option.bind_some, ha]
    rfl
  | assign name =>
    refine .bind (runs_cppTarget hl id o.target? name) fun member ws₁ _ hreach₁ hm => ?_
    refine .bind (hvalue (hreach₁.bare_of_notes hs) 0) fun value _ _ _ hv => ?_
    refine .pure ?_
    dsimp only
    rw [hm, hv]
    rfl
  | giveBack =>
    refine .get fun _ => ?_
    rw [Forest.childName?]
    cases ws.forest.child? source 0 with
    | none => exact .pure rfl
    | some child =>
      refine .bind (hvalue rfl 0) fun value _ _ _ hv => ?_
      refine .pure ?_
      dsimp only [Option.map_some]
      rw [hv]
      rfl

theorem runs_cppMember (hl : ws.Loaded) (id : ComponentId) (m : Member) :
    Runs Notes (cppMember id m) ws fun s _ => ws.memberText id m = some s := by
  refine .of_sound fun hs => ?_
  unfold cppMember memberText
  refine .bind (runs_cppType hl id (some m.type)) fun type ws₁ _ hreach₁ ht => ?_
  have hb := hreach₁.bare_of_notes hs
  refine .component fun _ => ?_
  rw [name_of_bare hb, instruction?_of_bare hb, ht]
  cases m.value? with
  | none => exact .pure rfl
  | some _ =>
    cases (ws.component id).instruction? with
    | none => exact .pure rfl
    | some source =>
      have hvalue := runs_cppValue (hl.of_bare hb) id source 0
      rw [valueText_of_bare hb] at hvalue
      refine .bind hvalue fun value _ _ _ hv => .pure ?_
      simp only [Option.bind_eq_bind, Option.bind_some, hv]
      rfl

theorem runs_cppParam (hl : ws.Loaded) (function param : ComponentId) :
    Runs Notes (cppParam function param) ws fun s _ => ws.paramText function param = some s := by
  refine .of_sound fun hs => .get fun _ => ?_
  refine .bind (runs_cppType hl function _) fun type ws₁ _ hreach₁ ht => ?_
  refine .component fun _ => .pure ?_
  rw [paramText, ht, name_of_bare (hreach₁.bare_of_notes hs)]
  rfl

theorem runs_cppHead (hl : ws.Loaded) (id : ComponentId) (s : Signature) :
    Runs Notes (cppHead id s) ws fun head _ => ws.headText id s = some head := by
  refine .of_sound fun hs => ?_
  refine .bind (runs_cppType hl id s.result?) fun result ws₁ hs₁ hreach₁ hr => ?_
  have hb₁ := hreach₁.bare_of_notes hs
  have hparams : ∀ param ∈ s.params, ∀ ws₂, ws₂.Sound → Reach Notes ws₁ ws₂ →
      Runs Notes (cppParam id param) ws₂ fun text _ => ws.paramText id param = some text := by
    intro param _ ws₂ _ hreach₂
    have hb₂ := (hreach₂.bare_of_notes hs₁).trans hb₁
    have h := runs_cppParam (hl.of_bare hb₂) id param
    rwa [paramText_of_bare hb₂] at h
  refine .bind (.mapM hparams) fun params ws₂ _ hreach₂ hps => ?_
  have hb₂ := (hreach₂.bare_of_notes hs₁).trans hb₁
  refine .component fun _ => .pure ?_
  rw [headText, hr, Option.bind_eq_bind, Option.bind_some, hps, specifiers_of_bare hb₂,
    name_of_bare hb₂]
  rfl

end Spelling

/-! ## Lines -/

section Lines

variable {S T : ComponentId → Prop} {f id : ComponentId} {ws : Workspace}

theorem runs_write_text (hid : S id) (hlt : id < ws.size) (s : String) :
    Runs (Prints S T f) (write id s) ws fun _ ws' => ws'.text id = ws.text id ++ s ∧
      ws'.nextLine f = ws.nextLine f := by
  refine .change (.edit id (.text s)) rfl trivial (.text s hid) ⟨?_, ?_⟩
  · rw [text, Change.apply, component_modify_eq, if_pos ⟨rfl, hlt⟩]
    exact Buffer.text_push ..
  · rw [nextLine, Change.apply, component_modify_eq]
    split <;> rfl

theorem runs_countLine (hf : ws.isFile f = true) (id : ComponentId) :
    Runs (Prints S T f) (updateFile f fun f => { f with nextLine := f.nextLine + 1 }) ws fun _ ws' =>
      ws'.text id = ws.text id ∧ ws'.nextLine f = ws.nextLine f + 1 := by
  refine .change (.edit f (.file .lineEnd)) rfl trivial .lineEnd ⟨?_, ?_⟩
  · exact ws.modify_keeps (g := (Edit.file .lineEnd).apply) f (fun c => c.buffer.text) (fun _ => rfl) id
  · have hlt := lt_size_of_isFile hf
    rw [isFile, kind, Kind.isFile] at hf
    obtain ⟨file, hfile⟩ := Option.isSome_iff_exists.mp hf
    rw [nextLine, Change.apply, component_modify_eq, if_pos ⟨rfl, hlt⟩,
      Component.file?, Edit.apply, Kind.file?_mapFile, hfile, nextLine, Component.file?, hfile]
    rfl

theorem line?_stamp {i : InstructionId} (hi : i < ws.forest.size) (line : Nat) :
    ((Change.stamp i line).apply ws).line? i = some line := by
  rw [line?, Change.apply, Forest.stamp, Forest.get_modify_eq, if_pos ⟨rfl, hi⟩]

/-- The end of a line is counted in the file, and noted at the instruction if that is asked for. -/
theorem runs_endLine (hid : S id) (hfile : ws.fileOf? id = some f) (stamp : Bool) (hT : stamp = true → T id) :
    Runs (Prints S T f) (endLine id stamp) ws fun _ ws' => ws'.text id = ws.text id ++ "\n" ∧
      ws'.nextLine f = ws.nextLine f + 1 ∧ (stamp = true → ws.isFile id = false →
        ∀ i, (ws.component id).instruction? = some i → ws'.line? i = some (ws.nextLine f)) := by
  refine .of_sound fun hs => ?_
  have hlt := hs.lt_size_of_fileOf? hfile
  refine .bind (runs_write_text hid hlt "\n") ?_
  rintro _ ws₁ hs₁ hreach₁ ⟨htext₁, hnext₁⟩
  have hb₁ := hreach₁.bare_eq hs
  refine .get fun _ => ?_
  rw [fileOf?_of_bare hb₁, hfile]
  have hf : ws₁.isFile f = true := by
    rw [isFile_of_bare hb₁]
    exact isFile_of_fileOf? hfile
  dsimp only
  refine .bind (runs_countLine hf id) ?_
  rintro _ ws₂ hs₂ hreach₂ ⟨htext₂, hnext₂⟩
  have htext : ws₂.text id = ws.text id ++ "\n" := htext₂.trans htext₁
  have hnext : ws₂.nextLine f = ws.nextLine f + 1 := by rw [hnext₂, hnext₁]
  rw [isFile_of_bare hb₁, instruction?_of_bare hb₁]
  cases stamp with
  | false => exact .pure ⟨htext, hnext, by rintro ⟨⟩⟩
  | true =>
    cases hisFile : ws.isFile id with
    | true => exact .pure ⟨htext, hnext, by rintro _ ⟨⟩⟩
    | false =>
      cases hsource : (ws.component id).instruction? with
      | none => exact .pure ⟨htext, hnext, by rintro _ _ _ ⟨⟩⟩
      | some source =>
        have hsource₂ : (ws₂.component id).instruction? = some source := by
          rw [instruction?_of_bare ((hreach₂.bare_eq hs₁).trans hb₁), hsource]
        have hstamp : Runs (Prints S T f)
            (updateForest fun forest => forest.stamp source (ws₁.nextLine f)) ws₂
            fun _ ws' => ws'.text id = ws.text id ++ "\n" ∧
              ws'.nextLine f = ws.nextLine f + 1 ∧ ws'.line? source = some (ws.nextLine f) := by
          refine .change (.stamp source (ws₁.nextLine f)) rfl trivial
            (.stamp _ (hT rfl) hsource₂) ⟨htext, hnext, ?_⟩
          rw [line?_stamp (hs₂.instruction_lt hsource₂), hnext₁]
        refine .bind hstamp ?_
        rintro _ ws₃ _ _ ⟨htext, hnext, hline⟩
        refine .pure ⟨htext, hnext, ?_⟩
        rintro _ _ _ ⟨⟩
        exact hline

end Lines

end Build

/-! ## Counting lines -/

/-- The instructions of the components of some lines have the numbers of these lines, counted from
`n` on. -/
def Workspace.Stamped (ws : Workspace) (n : Nat) (lines : List HeaderLine) : Prop :=
  ∀ k l x i, lines[k]? = some l → l.owner? = some x → (ws.component x).instruction? = some i →
    ws.line? i = some (n + k)

/-- From `ws` to `ws'` the lines were counted in the file `f`, and noted if no two components were
made from one instruction. -/
structure Counted (f : ComponentId) (lines : List HeaderLine) (ws ws' : Workspace) : Prop where
  next : ws'.nextLine f = ws.nextLine f + lines.length
  stamped : ws.Apart → ws'.Stamped (ws.nextLine f) lines

section Counting

variable {S T : ComponentId → Prop} {f : ComponentId} {ws ws₁ ws₂ : Workspace}

theorem Workspace.Apart.of_bare (h : ws.Apart) (hb : ws₁.bare = ws.bare) : ws₁.Apart := by
  intro a b i ha hb'
  rw [instruction?_of_bare hb] at ha hb'
  exact h a b i ha hb'

theorem Counted.nil (h : ws₁.nextLine f = ws.nextLine f) : Counted f [] ws ws₁ :=
  ⟨h, fun _ _ _ _ _ h => by cases h⟩

/-- What is done before a line counts nothing. -/
theorem Counted.after (hb : ws₁.bare = ws.bare) (hn : ws₁.nextLine f = ws.nextLine f)
    {lines : List HeaderLine} (h : Counted f lines ws₁ ws₂) : Counted f lines ws ws₂ :=
  ⟨by rw [h.next, hn], fun ha => hn ▸ h.stamped (ha.of_bare hb)⟩

/-- **Lines are counted one after the other**, as long as the later ones are of other components. -/
theorem Counted.append {a b : List HeaderLine} (ha : Counted f a ws ws₁) (hb : Counted f b ws₁ ws₂)
    (hs₁ : ws₁.Sound) (hbare : ws₁.bare = ws.bare) (hreach : Reach (Prints S T f) ws₁ ws₂)
    (hT : ∀ l ∈ a, ∀ x, l.owner? = some x → ¬T x) : Counted f (a ++ b) ws ws₂ := by
  refine ⟨by rw [hb.next, ha.next, List.length_append, Nat.add_assoc], fun hapart => ?_⟩
  have hapart₁ := hapart.of_bare hbare
  intro k l x i hl hx hi
  by_cases hk : k < a.length
  · rw [List.getElem?_append_left hk] at hl
    have hi₁ : (ws₁.component x).instruction? = some i := by
      rw [← instruction?_of_bare (hreach.bare_eq hs₁), hi]
    rw [hreach.line?_eq hs₁ fun y hy hiy => ?_]
    · exact ha.stamped hapart k l x i hl hx hi₁
    · -- the later lines are of other components, so of other instructions
      rw [hapart₁ y x i hiy hi₁] at hy
      exact hT l (List.mem_of_getElem? hl) x hx hy
  · rw [List.getElem?_append_right (Nat.le_of_not_lt hk)] at hl
    rw [hb.stamped hapart₁ (k - a.length) l x i hl hx hi, ha.next, Nat.add_assoc,
      Nat.add_sub_cancel' (Nat.le_of_not_lt hk)]

end Counting

namespace Build

section Lines

variable {S T : ComponentId → Prop} {f id : ComponentId} {ws : Workspace}

/-- Text with the end of a line. Whose line it is depends on whether that is noted. -/
theorem runs_endText (hid : S id) (hfile : ws.fileOf? id = some f) (stamp : Bool)
    (hT : stamp = true → T id ∧ ws.isFile id = false) (text : String) :
    Runs (Prints S T f)
      (do
        write id text
        discard <| endLine id stamp) ws fun _ ws' => ws'.text id = ws.text id ++ (text ++ "\n") ∧
      ∀ t, Counted f [{ owner? := if stamp then some id else none, text := t }] ws ws' := by
  refine .of_sound fun hs => ?_
  have hlt := hs.lt_size_of_fileOf? hfile
  refine .bind (runs_write_text hid hlt text) ?_
  rintro _ ws₁ hs₁ hreach₁ ⟨htext₁, hnext₁⟩
  have hb₁ := hreach₁.bare_eq hs
  have hfile₁ : ws₁.fileOf? id = some f := by rw [fileOf?_of_bare hb₁, hfile]
  refine .bind (runs_endLine hid hfile₁ stamp fun h => (hT h).1) ?_
  rintro _ ws₂ _ hreach₂ ⟨htext₂, hnext₂, hline₂⟩
  refine .pure ⟨by rw [htext₂, htext₁, String.append_assoc], fun t => ?_⟩
  refine Counted.after hb₁ hnext₁ ⟨hnext₂, fun _ k l x i hl hx hi => ?_⟩
  cases k with
  | succ k => cases hl
  | zero =>
    cases hl
    cases stamp with
    | false => cases hx
    | true =>
      cases hx
      refine hline₂ rfl ?_ i ?_
      · rw [isFile_of_bare hb₁]
        exact (hT rfl).2
      · rw [← instruction?_of_bare (hreach₂.bare_eq hs₁), hi]

theorem runs_marginLine (hid : S id) (hfile : ws.fileOf? id = some f) (stamp : Bool)
    (hT : stamp = true → T id ∧ ws.isFile id = false) (text : String) :
    Runs (Prints S T f)
      (do
        write id ((← get).margin id)
        write id text
        discard <| endLine id stamp) ws fun _ ws' =>
      let l := lineAt (ws.depthInFile id) (if stamp then some id else none) text
      ws'.text id = ws.text id ++ HeaderLine.joined [l] ∧ Counted f [l] ws ws' := by
  refine .of_sound fun hs => .get fun _ => ?_
  have hlt := hs.lt_size_of_fileOf? hfile
  refine .bind (runs_write_text hid hlt _) ?_
  rintro _ ws₁ hs₁ hreach₁ ⟨htext₁, hnext₁⟩
  have hb₁ := hreach₁.bare_eq hs
  have hfile₁ : ws₁.fileOf? id = some f := by rw [fileOf?_of_bare hb₁, hfile]
  have hisFile₁ : ws₁.isFile id = ws.isFile id := by rw [isFile_of_bare hb₁]
  refine (runs_endText hid hfile₁ stamp (fun h => hisFile₁ ▸ hT h) text).weaken ?_
  rintro _ ws₂ - - ⟨htext₂, hcounted⟩
  refine ⟨?_, (hcounted _).after hb₁ hnext₁⟩
  rw [htext₂, htext₁, HeaderLine.joined_singleton]
  simp only [lineAt, margin, String.append_assoc]

theorem runs_addIndented (hid : S id) (hT : T id) (hfile : ws.fileOf? id = some f)
    (hno : ws.isFile id = false) (line : String) :
    Runs (Prints S T f) (addIndented id line) ws fun _ ws' =>
      let l := lineAt (ws.depthInFile id) (some id) line
      ws'.text id = ws.text id ++ HeaderLine.joined [l] ∧ Counted f [l] ws ws' :=
  runs_marginLine hid hfile true (fun _ => ⟨hT, hno⟩) line

theorem runs_addClosing (hid : S id) (hfile : ws.fileOf? id = some f) :
    Runs (Prints S T f) (addClosing id) ws fun _ ws' =>
      let l := lineAt (ws.depthInFile id) none "\x7d"
      ws'.text id = ws.text id ++ HeaderLine.joined [l] ∧ Counted f [l] ws ws' :=
  runs_marginLine hid hfile false (by rintro ⟨⟩) "\x7d"

end Lines

end Build

end LightHeaders
