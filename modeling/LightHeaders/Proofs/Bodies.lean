import LightHeaders.Proofs.Printing

set_option autoImplicit false

/-! # The bodies of files

Whole components are written as the printer prints them. A component starts with no text for anything
inline in it and writes only there, so the children of a component do not disturb one another
(`addsAs_addChildren`). By induction on the levels this holds for a component with everything below it
(`printsAs_renderWithin`); what is lifted adds its lines to the file (`addsAs_liftAll`).
-/

namespace LightHeaders

open Workspace HeaderLine

namespace Build

section Components

variable {B : Workspace} {f : ComponentId} {render : ComponentId → Build String}

/-- `render` writes a component as the printer prints it at a level, from any workspace that differs
from `B` in its pages only and has no text for anything inline in the component. -/
def PrintsAs (B : Workspace) (f : ComponentId) (render : ComponentId → Build String) (level : Nat)
    (x : ComponentId) : Prop :=
  ∀ ws, ws.bare = B.bare → (∀ z, B.Inline x z → ws.text z = "") →
    Runs (Prints (B.Inline x) (B.Inline x) f) (render x) ws fun s ws' =>
      ∃ lines, B.print level x = some lines ∧ s = joined lines ∧ Counted f lines ws ws'

/-- The component is in the file, is no file, and its text is indented by the level. -/
structure AtLevel (B : Workspace) (f : ComponentId) (level : Nat) (x : ComponentId) : Prop where
  file : B.fileOf? x = some f
  noFile : B.isFile x = false
  depth : B.depthInFile x = level

theorem AtLevel.of_bare {ws : Workspace} {level : Nat} {x : ComponentId} (h : AtLevel B f level x)
    (hb : ws.bare = B.bare) : AtLevel ws f level x where
  file := (fileOf?_of_bare hb x).trans h.file
  noFile := (isFile_of_bare hb x).trans h.noFile
  depth := (depthInFile_of_bare hb x).trans h.depth

/-- `render` writes the children of a component that stay where they are as the printer prints them. -/
def PrintsBelow (B : Workspace) (f : ComponentId) (render : ComponentId → Build String) (level : Nat)
    (x : ComponentId) : Prop :=
  ∀ c ∈ (B.component x).childIds, B.isFile c = false → (B.component c).forward? = none →
    PrintsAs B f render (level + 1) c

/-- `act` adds the given lines to the text of `id`. It does so from any workspace that differs from `B`
in its pages only and has no text in the region `R`, which it writes in as well. -/
structure AddsAs (B : Workspace) (f id : ComponentId) (R : ComponentId → Prop) (act : Build Unit)
    (lines? : Option (List HeaderLine)) : Prop where
  owned : ∀ lines, lines? = some lines → ∀ l ∈ lines, ∀ x, l.owner? = some x → R x
  runs : ∀ ws, ws.bare = B.bare → (∀ z, R z → ws.text z = "") →
    Runs (Prints (fun z => z = id ∨ R z) R f) act ws fun _ ws' =>
      ∃ lines, lines? = some lines ∧ ws'.text id = ws.text id ++ joined lines ∧
        Counted f lines ws ws'

section Adding

variable {id : ComponentId} {R T : ComponentId → Prop}

theorem AddsAs.nothing : AddsAs B f id R (pure ()) (some []) where
  owned := by
    rintro _ ⟨⟩ _ ⟨⟩
  runs ws _ _ := by
    refine .pure ⟨[], rfl, ?_, Counted.nil rfl⟩
    rw [joined_nil, String.append_empty]

theorem AddsAs.of_iff {act : Build Unit} {lines? : Option (List HeaderLine)} (h : AddsAs B f id R act lines?)
    (hR : ∀ z, R z ↔ T z) : AddsAs B f id T act lines? := by
  rwa [show T = R from funext fun z => propext (hR z).symm]

/-- **Lines after lines**, from regions with nothing in common. -/
theorem AddsAs.andThen {first second : Build Unit} {a? b? : Option (List HeaderLine)}
    (ha : AddsAs B f id R first a?) (hb : AddsAs B f id T second b?) (hid : ¬T id)
    (hapart : ∀ z, R z → ¬T z) :
    AddsAs B f id (fun z => R z ∨ T z) (first >>= fun _ => second)
      (do
        let a ← a?
        let b ← b?
        return a ++ b) where
  owned := by
    intro lines h l hl x hx
    obtain ⟨a, ha', h⟩ := Option.bind_eq_some_iff.mp h
    obtain ⟨b, hb', h⟩ := Option.bind_eq_some_iff.mp h
    cases h
    rcases List.mem_append.mp hl with hl | hl
    · exact .inl (ha.owned a ha' l hl x hx)
    · exact .inr (hb.owned b hb' l hl x hx)
  runs := by
    intro ws hbare hempty
    refine .of_sound fun hs => ?_
    have hfirst := (ha.runs ws hbare fun z hz => hempty z (.inl hz)).weaken fun _ ws₁ _ hreach h =>
      (⟨fun z hne hz => hreach.text_eq hs (not_or.mpr ⟨hne, hz⟩), h⟩ :
        (∀ z, z ≠ id → ¬R z → ws₁.text z = ws.text z) ∧ _)
    refine .bind (hfirst.mono (Prints.mono (fun z => Or.imp_right .inl) fun z => .inl)) ?_
    rintro _ ws₁ hs₁ hreach₁ ⟨hkept, a, ha', htext₁, hcounted₁⟩
    have hb₁ := hreach₁.bare_eq hs
    have hsecond := hb.runs ws₁ (hb₁.trans hbare) fun z hz => by
      rw [hkept z (fun heq => hid (heq ▸ hz)) fun h => hapart z h hz]
      exact hempty z (.inr hz)
    refine .mono (hsecond.weaken ?_) (Prints.mono (fun z => Or.imp_right .inr) fun z => .inr)
    rintro _ ws₂ _ hreach₂ ⟨b, hb', htext₂, hcounted₂⟩
    refine ⟨a ++ b, by rw [ha', hb']; rfl, ?_, ?_⟩
    · rw [htext₂, htext₁, joined_append, String.append_assoc]
    · exact hcounted₁.append hcounted₂ hs₁ hb₁ hreach₂ fun l hl x hx =>
        hapart x (ha.owned a ha' l hl x hx)

/-- **The lines of a row of components**, from regions of which no two have anything in common. -/
theorem AddsAs.forM {region : ComponentId → ComponentId → Prop} {act : ComponentId → Build Unit}
    {print : ComponentId → Option (List HeaderLine)} {ids : List ComponentId}
    (h : ∀ c ∈ ids, AddsAs B f id (region c) (act c) (print c)) (hid : ∀ c ∈ ids, ¬region c id)
    (hapart : ids.Pairwise fun c d => ∀ z, region c z → ¬region d z) :
    AddsAs B f id (fun z => ∃ c ∈ ids, region c z) (ids.forM act) (printAll print ids) := by
  induction ids with
  | nil => exact AddsAs.nothing
  | cons c ids ih =>
    obtain ⟨hc, hapart⟩ := List.pairwise_cons.mp hapart
    have hrest := ih (fun d hd => h d (.tail _ hd))
      (fun d hd => hid d (.tail _ hd)) hapart
    refine ((h c (.head _)).andThen hrest ?_ ?_).of_iff fun z => ?_
    · rintro ⟨d, hd, hz⟩
      exact hid d (.tail _ hd) hz
    · rintro z hz ⟨d, hd, hdz⟩
      exact hc d hd z hz hdz
    · simp only [List.mem_cons, exists_eq_or_imp]

end Adding

/-! ## The children of a component -/

/-- Inline in a child of the component that stays where it is. -/
def InChildren (B : Workspace) (id : ComponentId) (prune : Bool) (z : ComponentId) : Prop :=
  ∃ c ∈ B.inlineChildren id prune, B.Inline c z

variable {id z : ComponentId} {prune : Bool} {level : Nat}

theorem InChildren.inline (h : InChildren B id prune z) (hbody : B.bodyOf id = B.inlineChildren id prune) :
    B.Inline id z := by
  obtain ⟨c, hc, hz⟩ := h
  exact (Workspace.Inline.refl.step (hbody ▸ hc)).trans hz

theorem InChildren.ne (hB : B.Sound) (h : InChildren B id prune z) : z ≠ id := by
  obtain ⟨c, hc, hz⟩ := h
  rintro rfl
  exact Workspace.Inline.not_parent hB (mem_childIds_of_mem_inlineChildren hc) hz

/-- One child of a component, which is passed over if it is forwarded. -/
theorem addsAs_child (hB : B.Sound) {c : ComponentId} (hc : c ∈ (B.component id).childIds)
    (hrender : (B.component c).forward? = none → PrintsAs B f render level c) :
    AddsAs B f id (fun z => (B.component c).forward? = none ∧ B.Inline c z)
      (do
        if (← component c).forward?.isNone then
          let text ← render c
          write id text)
      (if (B.component c).forward?.isNone then B.print level c else some []) where
  owned := by
    intro lines h l hl x hx
    cases hforward : (B.component c).forward? with
    | some target =>
      rw [hforward] at h
      cases h
      cases hl
    | none =>
      rw [hforward] at h
      exact ⟨rfl, inline_of_mem_printWithin h hl hx⟩
  runs := by
    intro ws hb hempty
    refine .of_sound fun hs => .component fun _ => ?_
    rw [forward?_of_bare hb]
    cases hforward : (B.component c).forward? with
    | some target =>
      rw [hforward] at hempty
      exact AddsAs.nothing.runs ws hb hempty
    | none =>
      have hid : id < ws.size := by
        obtain ⟨hlt, -, hafter⟩ := hB.of_mem_childIds hc
        rw [size_of_bare hb]
        exact lt_trans hafter hlt
      -- the text of the component itself stays while its child is written
      have hone := (hrender hforward ws hb fun z hz => hempty z ⟨hforward, hz⟩).weaken
        fun s ws₁ _ hreach h =>
          (⟨hreach.text_eq hs (Workspace.Inline.not_parent hB hc), h⟩ :
            ws₁.text id = ws.text id ∧ _)
      refine .bind (hone.mono (Prints.mono (fun z hz => .inr ⟨rfl, hz⟩) fun z hz => ⟨rfl, hz⟩)) ?_
      rintro s ws₁ hs₁ hreach₁ ⟨htext₁, lines, hlines, hsaid, hcounted⟩
      have hwrite := runs_write_text (S := fun z => z = id) (T := fun _ => False) (f := f) rfl
        (hreach₁.lt hid) s
      refine .mono (hwrite.weaken ?_) (Prints.mono (fun z hz => .inl hz) fun z hz => hz.elim)
      rintro _ ws₂ _ hreach₂ ⟨htext₂, hnext₂⟩
      refine ⟨lines, hlines, by rw [htext₂, htext₁, hsaid], ?_⟩
      have h := hcounted.append (Counted.nil hnext₂) hs₁ (hreach₁.bare_eq hs) hreach₂
        fun _ _ _ _ h => h
      rwa [List.append_nil] at h

/-- **The children of a component that stay where they are**, in their order. -/
theorem addsAs_addChildren (hB : B.Sound) (prune : Bool)
    (hrender : ∀ c ∈ B.writtenChildren id prune, (B.component c).forward? = none →
      PrintsAs B f render level c) :
    AddsAs B f id (InChildren B id prune) (addChildren render id prune)
      (printAll (B.print level) (B.inlineChildren id prune)) := by
  have hchild : ∀ c ∈ B.writtenChildren id prune, c ∈ (B.component id).childIds := fun c hc =>
    mem_childIds_of_mem_writtenChildren hc
  have hall := AddsAs.forM (fun c hc => addsAs_child hB (hchild c hc) (hrender c hc))
    (fun c hc hz => Workspace.Inline.not_parent hB (hchild c hc) hz.2)
    (List.Pairwise.imp_of_mem (fun {c d} hc hd hne z hz hz' =>
      hz.2.disjoint_siblings hB (hchild c hc) (hchild d hd) hne hz'.2) ((hB.nodup id).filter _))
  rw [printAll_filter] at hall
  replace hall := hall.of_iff (T := InChildren B id prune) fun z => by
    simp only [InChildren, inlineChildren, List.mem_filter, Option.isNone_iff_eq_none,
      and_assoc]
  refine ⟨hall.owned, fun ws hb hempty => .get fun _ => ?_⟩
  rw [writtenChildren_of_bare hb]
  exact hall.runs ws hb hempty

/-! ## Components by their kinds -/

section Kinds

variable {x : ComponentId} {level : Nat}

variable {text? : Option String} {ws : Workspace}

theorem runs_block (hB : B.Sound) (hx : AtLevel B f level x) (hrender : PrintsBelow B f render level x)
    (hb : ws.bare = B.bare) (hempty : ∀ z, B.Inline x z → z ≠ x → ws.text z = "") (head : String)
    (hbody : B.bodyOf x = B.inlineChildren x prune) :
    Runs (Prints (B.Inline x) (B.Inline x) f)
      (do
        addIndented x head
        addChildren render x prune
        addClosing x) ws fun _ ws' =>
      ∃ lines, B.block (B.print (level + 1)) level x head prune = some lines ∧
        ws'.text x = ws.text x ++ joined lines ∧ Counted f lines ws ws' := by
  refine .of_sound fun hs => ?_
  have hx₀ := hx.of_bare hb
  have hself : ∀ z, z = x → B.Inline x z := by
    rintro z rfl
    exact .refl
  -- the head
  have hhead := (runs_addIndented (S := fun z => z = x) (T := fun z => z = x) rfl rfl hx₀.file
    hx₀.noFile head).weaken fun _ ws₁ _ hreach h =>
      (⟨fun z hne => hreach.text_eq hs hne, h⟩ : (∀ z, z ≠ x → ws₁.text z = ws.text z) ∧ _)
  rw [hx₀.depth] at hhead
  refine .bind (hhead.mono (Prints.mono hself hself)) ?_
  rintro _ ws₁ hs₁ hreach₁ ⟨hkept₁, htext₁, hcounted₁⟩
  have hb₁ := hreach₁.bare_eq hs
  -- the children
  have hchildren := addsAs_addChildren hB prune fun c hc =>
    hrender c (mem_childIds_of_mem_writtenChildren hc)
      (isFile_of_mem_writtenChildren hc)
  have hinner := (hchildren.runs ws₁ (hb₁.trans hb) fun z hz =>
    (hkept₁ z (hz.ne hB)).trans (hempty z (hz.inline hbody) (hz.ne hB))).weaken
      fun _ ws₂ _ hreach h => (⟨hreach, h⟩ : Reach _ ws₁ ws₂ ∧ _)
  refine .bind (hinner.mono (Prints.mono (fun z hz => hz.elim (hself z) fun h => h.inline hbody)
    fun z hz => hz.inline hbody)) ?_
  rintro _ ws₂ hs₂ hreach₂ ⟨hown₂, inner, hprinted, htext₂, hcounted₂⟩
  have hb₂ := (hreach₂.bare_eq hs₁).trans hb₁
  -- the end
  have hx₂ := hx.of_bare (hb₂.trans hb)
  have hend := runs_addClosing (S := fun z => z = x) (T := fun _ => False) rfl hx₂.file
  rw [hx₂.depth] at hend
  refine .mono (hend.weaken ?_) (Prints.mono hself fun z hz => hz.elim)
  rintro _ ws₃ _ hreach₃ ⟨htext₃, hcounted₃⟩
  refine ⟨[lineAt level (some x) head] ++ inner ++ [lineAt level none "\x7d"],
    by rw [block, hprinted]; rfl, ?_, ?_⟩
  · rw [htext₃, htext₂, htext₁, joined_append, joined_append,
      String.append_assoc, String.append_assoc, String.append_assoc]
  · have hupTo := hcounted₁.append hcounted₂ hs₁ hb₁ hown₂ fun l hl y hy hz => by
      rw [List.mem_singleton.mp hl] at hy
      cases hy
      exact hz.ne hB rfl
    exact hupTo.append hcounted₃ hs₂ hb₂ hreach₃ fun _ _ _ _ h => h

variable {spell : Build String}

/-- Where a line is spelled before it is written, that changes no text and counts no line. -/
theorem runs_spelled {S T : ComponentId → Prop} (hspell : Runs Notes spell ws fun s _ => text? = some s)
    {write : String → Build Unit} {Q : Unit → Workspace → Prop}
    (hwrite : ∀ s ws', text? = some s → ws'.bare = ws.bare → (∀ z, ws'.text z = ws.text z) →
      ws'.nextLine f = ws.nextLine f → Runs (Prints S T f) (write s) ws' Q) :
    Runs (Prints S T f) (spell >>= write) ws Q := by
  refine .of_sound fun hs => ?_
  have hspelled := hspell.weaken fun s ws₁ _ hreach h => (⟨hreach, h⟩ : Reach Notes ws ws₁ ∧ _)
  refine .bind (hspelled.mono fun _ _ mem => .note mem) ?_
  rintro s ws₁ _ _ ⟨hreach, htext⟩
  refine hwrite s ws₁ htext (hreach.bare_of_notes hs) (fun z => ?_) (hreach.nextLine_eq hs f)
  exact (hreach.of_notes (S := fun _ => False) (T := fun _ => False) (f := f)).text_eq hs id

theorem runs_spelledLine (hx : AtLevel B f level x) (hb : ws.bare = B.bare)
    (hspell : Runs Notes spell ws fun s _ => text? = some s) :
    Runs (Prints (B.Inline x) (B.Inline x) f) (spell >>= addIndented x) ws fun _ ws' =>
      ∃ lines, (text?.map fun text => [lineAt level (some x) text]) = some lines ∧
        ws'.text x = ws.text x ++ joined lines ∧ Counted f lines ws ws' := by
  refine runs_spelled hspell fun s ws₁ hs hb₁ htext₁ hnext₁ => ?_
  have hx₁ := hx.of_bare (hb₁.trans hb)
  have hline := runs_addIndented (S := B.Inline x) (T := B.Inline x) .refl .refl hx₁.file hx₁.noFile s
  rw [hx₁.depth] at hline
  refine hline.weaken ?_
  rintro _ ws₂ _ _ ⟨htext₂, hcounted₂⟩
  exact ⟨_, by rw [hs]; rfl, by rw [htext₂, htext₁], hcounted₂.after hb₁ hnext₁⟩

/-- **The text of a component that is no file**, by its kind. -/
theorem runs_addOwnText (hB : B.Sound) (hl : B.Loaded) (hx : AtLevel B f level x)
    (hrender : PrintsBelow B f render level x) (hb : ws.bare = B.bare)
    (hempty : ∀ z, B.Inline x z → z ≠ x → ws.text z = "")
    {before : Workspace} (hbefore : before.bare = B.bare)
    (includeFile : ComponentId → ComponentId → Build Unit) :
    Runs (Prints (B.Inline x) (B.Inline x) f) (addOwnText includeFile render x (before.component x)) ws
      fun _ ws' =>
        ∃ lines, B.printOwn (B.print (level + 1)) level x (B.kind x) = some lines ∧
          ws'.text x = ws.text x ++ joined lines ∧ Counted f lines ws ws' := by
  have hkind : (before.component x).kind = B.kind x := kind_eq_of_bare hbefore hx.noFile
  have hlAt : ws.Loaded := hl.of_bare hb
  unfold addOwnText
  rw [hkind, name_of_bare hbefore]
  cases hk : B.kind x with
  | file file =>
    have hno := hx.noFile
    rw [isFile, hk] at hno
    cases hno
  | space => exact runs_block hB hx hrender hb hempty _ (by rw [bodyOf, hk])
  | classType | structType => exact .throw _
  | function s =>
    -- spelling the head adds no text and counts no line
    have hhead := runs_cppHead hlAt x s
    rw [headText_of_bare hb] at hhead
    refine runs_spelled hhead fun head ws₁ hs hb₁ htext₁ hnext₁ => ?_
    refine (runs_block hB hx hrender (hb₁.trans hb)
      (fun z hz hne => (htext₁ z).trans (hempty z hz hne)) head (by rw [bodyOf, hk])).weaken ?_
    rintro _ ws₂ _ _ ⟨lines, hlines, htext₂, hcounted₂⟩
    refine ⟨lines, ?_, by rw [htext₂, htext₁], hcounted₂.after hb₁ hnext₁⟩
    rw [printOwn, hs]
    exact hlines
  | member m =>
    have hmember := runs_cppMember hlAt x m
    rw [memberText_of_bare hb] at hmember
    exact runs_spelledLine hx hb hmember
  | operation o =>
    dsimp only
    rw [printOwn, instruction?_of_bare hbefore]
    cases (B.component x).instruction? with
    | none =>
      refine .pure ⟨[], rfl, ?_, Counted.nil rfl⟩
      rw [joined_nil, String.append_empty]
    | some source =>
      have hstatement := runs_cppStatement hlAt x source o
      rw [statementText_of_bare hb] at hstatement
      exact runs_spelledLine hx hb hstatement

end Kinds

/-! ## Whole components -/

section Whole

variable {includeFile : ComponentId → ComponentId → Build Unit} {x : ComponentId} {level : Nat}

theorem renderWithin_succ (depth : Nat) (x : ComponentId) :
    renderWithin includeFile (depth + 1) x =
      (do
        let c ← component x
        update x fun c => { c with written := true }
        addOwnText includeFile (renderWithin includeFile depth) x c) >>= fun _ => handOn x := by
  simp only [renderWithin, renderBelow, bind_assoc]

variable {ws : Workspace}

/-- A component is written before its text is handed on. -/
theorem runs_written (includeFile : ComponentId → ComponentId → Build Unit) (hB : B.Sound) (hl : B.Loaded)
    (hx : AtLevel B f level x) (hrender : PrintsBelow B f render level x) (hb : ws.bare = B.bare)
    (hempty : ∀ z, B.Inline x z → ws.text z = "") :
    Runs (Prints (B.Inline x) (B.Inline x) f)
      (do
        let c ← component x
        update x fun c => { c with written := true }
        addOwnText includeFile render x c) ws fun _ ws' =>
      ∃ lines, B.print level x = some lines ∧ ws'.text x = joined lines ∧
        Counted f lines ws ws' := by
  refine .of_sound fun hs => .component fun _ => ?_
  have hmark : Runs (Prints (B.Inline x) (B.Inline x) f)
      (update x fun c => { c with written := true }) ws fun _ ws' =>
        (∀ z, ws'.text z = ws.text z) ∧ ws'.nextLine f = ws.nextLine f := by
    refine .change (.edit x .written) rfl trivial (.written .refl) ⟨fun z => ?_, ?_⟩
    · exact ws.modify_keeps (g := Edit.written.apply) x (fun c => c.buffer.text) (fun _ => rfl) z
    · exact ws.modify_keeps (g := Edit.written.apply) x
        (fun c => (c.file?.map SourceFile.nextLine).getD 0) (fun _ => rfl) f
  refine .bind hmark ?_
  rintro _ ws₁ _ hreach₁ ⟨htext₁, hnext₁⟩
  have hb₁ := hreach₁.bare_eq hs
  refine (runs_addOwnText hB hl hx hrender (hb₁.trans hb)
    (fun z hz _ => (htext₁ z).trans (hempty z hz)) hb includeFile).weaken ?_
  rintro _ ws₂ _ _ ⟨lines, hlines, htext₂, hcounted₂⟩
  refine ⟨lines, ?_, ?_, hcounted₂.after hb₁ hnext₁⟩
  · rw [hB.print_eq (hB.lt_size_of_fileOf? hx.file)]
    exact hlines
  · rw [htext₂, htext₁, hempty x .refl, String.empty_append]

theorem AtLevel.child (hB : B.Sound) (h : AtLevel B f level x) {c : ComponentId}
    (hc : c ∈ (B.component x).childIds) (hno : B.isFile c = false)
    (hstays : (B.component c).forward? = none) :
    AtLevel B f (level + 1) c where
  file := (hB.fileOf?_child hc hno).trans h.file
  noFile := hno
  depth := by
    rw [hB.depthInFile_child hc, hstays, h.noFile, h.depth]
    rfl

/-- **A component that stays where it is is written as it is printed**, by induction on the
levels. -/
theorem printsAs_renderWithin (hB : B.Sound) (hl : B.Loaded) (depth : Nat) (hdepth : B.size ≤ x + depth)
    (hx : AtLevel B f level x) (hstays : (B.component x).forward? = none) :
    PrintsAs B f (renderWithin includeFile depth) level x := by
  induction depth generalizing x level with
  | zero => exact absurd (hB.lt_size_of_fileOf? hx.file) (Nat.not_lt_of_le hdepth)
  | succ depth ih =>
    intro ws hb hempty
    rw [renderWithin_succ]
    refine .of_sound fun hs => ?_
    refine .bind (runs_written includeFile hB hl hx (fun c hc hnoFile hstays => ?_) hb hempty) ?_
    · obtain ⟨-, -, hafter⟩ := hB.of_mem_childIds hc
      exact ih (by grind) (hx.child hB hc hnoFile hstays) hstays
    · rintro _ ws₁ _ hreach₁ ⟨lines, hlines, htext, hcounted⟩
      refine .component fun _ => ?_
      rw [forward?_of_bare ((hreach₁.bare_eq hs).trans hb), hstays]
      exact .pure ⟨lines, hlines, htext, hcounted⟩

/-- There is room for everything that differs from `B` in its pages only. -/
theorem size_le_capacity (hb : ws.bare = B.bare) : B.size ≤ ws.capacity := by
  rw [← size_of_bare hb]
  exact Nat.le_add_right _ _

theorem printsAs_renderInside (hB : B.Sound) (hl : B.Loaded) (hx : AtLevel B f level x)
    (hstays : (B.component x).forward? = none) :
    PrintsAs B f (renderInside includeFile) level x := fun ws hb hempty => .get fun _ =>
  printsAs_renderWithin hB hl ws.capacity (le_trans (size_le_capacity hb) (Nat.le_add_left _ _))
    hx hstays ws hb hempty

theorem addsAs_lift (hB : B.Sound) (hl : B.Loaded) (depth : Nat) (hdepth : B.size ≤ x + depth)
    (hfile : B.fileOf? x = some f) (hno : B.isFile x = false) (hforward : (B.component x).forward? = some f) :
    AddsAs B f f (B.Inline x) (discard <| renderWithin includeFile depth x) (B.print 0 x) where
  owned lines h l hl y hy := inline_of_mem_printWithin h hl hy
  runs := by
    intro ws hb hempty
    have hlift : (B.component x).forward?.isSome = true := by rw [hforward]; rfl
    have hnotFile : ¬B.Inline x f := fun h => by
      have heq := h.eq_of_isFile (isFile_of_fileOf? hfile)
      rw [heq, isFile_of_fileOf? hfile] at hno
      cases hno
    have hlt : f < ws.size := by
      rw [size_of_bare hb]
      exact lt_size_of_isFile (isFile_of_fileOf? hfile)
    cases depth with
    | zero => exact absurd (hB.lt_size_of_fileOf? hfile) (Nat.not_lt_of_le hdepth)
    | succ depth =>
      rw [renderWithin_succ]
      show Runs _ ((_ >>= fun _ => handOn x) >>= fun _ => pure ()) ws _
      rw [bind_assoc]
      refine .of_sound fun hs => ?_
      have hx : AtLevel B f 0 x := ⟨hfile, hno, hB.depthInFile_of_forward hlift⟩
      have hbelow : PrintsBelow B f (renderWithin includeFile depth) 0 x := fun c hc hnoFile hstays => by
        obtain ⟨-, -, hafter⟩ := hB.of_mem_childIds hc
        exact printsAs_renderWithin hB hl depth (by grind) (hx.child hB hc hnoFile hstays) hstays
      -- the function's own text leaves that of the file alone until it is handed on
      have hown := (runs_written includeFile hB hl hx hbelow hb hempty).weaken
        fun _ ws₁ _ hreach h => (⟨hreach.text_eq hs hnotFile, h⟩ : ws₁.text f = ws.text f ∧ _)
      refine .bind (hown.mono (Prints.mono (fun z => .inr) fun z => id)) ?_
      rintro _ ws₁ hs₁ hreach₁ ⟨hkept, lines, hlines, htext₁, hcounted₁⟩
      have hb₁ := hreach₁.bare_eq hs
      have hhand : Runs (Prints (fun z => z = f) (fun _ => False) f)
          (handOn x >>= fun _ => pure ()) ws₁ fun _ ws' =>
            ws'.text f = ws₁.text f ++ ws₁.text x ∧ ws'.nextLine f = ws₁.nextLine f := by
        unfold handOn
        rw [bind_assoc]
        refine .component fun _ => ?_
        rw [forward?_of_bare (hb₁.trans hb), hforward]
        exact .bind (runs_write_text (S := fun z => z = f) rfl (hreach₁.lt hlt) _)
          fun _ _ _ _ h => .pure h
      refine .mono (hhand.weaken ?_) (Prints.mono (fun z => .inl) fun z hz => hz.elim)
      rintro _ ws₂ _ hreach₂ ⟨htext₂, hnext₂⟩
      refine ⟨lines, hlines, by rw [htext₂, hkept, htext₁], ?_⟩
      have h := hcounted₁.append (Counted.nil hnext₂) hs₁ hb₁ hreach₂ fun _ _ _ _ h => h
      rwa [List.append_nil] at h

theorem addsAs_liftInside (hB : B.Sound) (hl : B.Loaded) (hfile : B.fileOf? x = some f)
    (hno : B.isFile x = false) (hforward : (B.component x).forward? = some f) :
    AddsAs B f f (B.Inline x) (discard <| renderInside includeFile x) (B.print 0 x) where
  owned lines h l hl y hy := inline_of_mem_printWithin h hl hy
  runs ws hb hempty := by
    show Runs _ (do discard <| renderWithin includeFile (← get).capacity x) ws _
    exact .get fun _ => (addsAs_lift hB hl ws.capacity
      (le_trans (size_le_capacity hb) (Nat.le_add_left _ _)) hfile hno hforward).runs ws hb hempty

theorem forward?_of_mem_lifted (hB : B.Sound) (hhome : B.ForwardsHome) (hfile : B.isFile f = true)
    (hx : x ∈ B.lifted f) : B.isFile x = false ∧ B.fileOf? x = some f ∧
      (B.component x).forward? = some f := by
  obtain ⟨hno, hof⟩ := hB.fileOf?_of_mem_lifted hx
  rw [hB.fileOf?_self hfile] at hof
  obtain ⟨target, htarget⟩ := Option.isSome_iff_exists.mp (hB.mem_lifted_iff.mp hx).2
  have htop := (hhome x target htarget).2
  rw [hof] at htop
  cases htop
  exact ⟨hno, hof, htarget⟩

theorem addsAs_liftAll (includeFile : ComponentId → ComponentId → Build Unit) (hB : B.Sound) (hl : B.Loaded)
    (hhome : B.ForwardsHome) (hfile : B.isFile f = true) :
    AddsAs B f f (fun z => ∃ x ∈ B.lifted f, B.Inline x z)
      ((B.lifted f).forM fun x => discard <| renderInside includeFile x)
      (printAll (B.print 0) (B.lifted f)) := by
  refine AddsAs.forM (fun x hx => ?_) (fun x hx hz => ?_) ?_
  · obtain ⟨hno, hof, hforward⟩ := forward?_of_mem_lifted hB hhome hfile hx
    exact addsAs_liftInside hB hl hof hno hforward
  · have hno := (forward?_of_mem_lifted hB hhome hfile hx).1
    rw [hz.eq_of_isFile hfile, hfile] at hno
    cases hno
  · have hforward : ∀ x ∈ B.lifted f, (B.component x).forward?.isSome = true := fun x hx =>
      (hB.mem_lifted_iff.mp hx).2
    exact List.Pairwise.imp_of_mem (fun {a b} ha hb hne z hz =>
      hz.disjoint_of_forward hB hne (hforward a ha) (hforward b hb)) (hB.nodup_lifted f)

theorem addsAs_standing (includeFile : ComponentId → ComponentId → Build Unit) (hB : B.Sound) (hl : B.Loaded)
    (hfile : B.isFile f = true) :
    AddsAs B f f (InChildren B f true) (addChildren (renderInside includeFile) f true)
      (printAll (B.print 0) (B.inlineChildren f true)) := by
  refine addsAs_addChildren hB true fun c hc hstays => ?_
  have hmem := mem_childIds_of_mem_writtenChildren hc
  have hno := isFile_of_mem_writtenChildren hc
  refine printsAs_renderInside hB hl
    ⟨(hB.fileOf?_child hmem hno).trans (hB.fileOf?_self hfile), hno, ?_⟩ hstays
  rw [hB.depthInFile_child hmem, hfile, Bool.or_true]
  rfl

theorem inside_of_rendered (hB : B.Sound) (hhome : B.ForwardsHome) (hfile : B.isFile f = true)
    (h : B.Rendered f z) : z ≠ f ∧ B.fileOf? z = some f := by
  rcases h with ⟨x, hx, hz⟩ | ⟨c, hc, hz⟩
  · obtain ⟨hno, hof, -⟩ := forward?_of_mem_lifted hB hhome hfile hx
    refine ⟨?_, (hz.fileOf?_eq hB).trans hof⟩
    rintro rfl
    rw [hz.eq_of_isFile hfile, hfile] at hno
    cases hno
  · obtain ⟨hmem, hno, -⟩ := of_mem_bodyOf hc
    refine ⟨?_, (hz.fileOf?_eq hB).trans ((hB.fileOf?_child hmem hno).trans (hB.fileOf?_self hfile))⟩
    rintro rfl
    exact Workspace.Inline.not_parent hB hmem hz

/-- **The body of a file**: what is lifted, then what stands in it. -/
theorem addsAs_body (hB : B.Sound) (hl : B.Loaded) (hhome : B.ForwardsHome) (hfile : B.isFile f = true) :
    AddsAs B f f (B.Rendered f)
      (do
        ((← get).lifted f).forM fun function => discard <| renderInside includeFile function
        addChildren (renderInside includeFile) f true) (B.bodyLines f) := by
  have hboth := (addsAs_liftAll includeFile hB hl hhome hfile).andThen
    (addsAs_standing includeFile hB hl hfile) (fun h => h.ne hB rfl) ?_
  · replace hboth := hboth.of_iff (T := B.Rendered f) fun z => by
      rw [Workspace.Rendered, bodyOf_of_isFile hfile, InChildren]
    refine ⟨hboth.owned, fun ws hb hempty => .get fun _ => ?_⟩
    rw [lifted_of_bare hb]
    exact hboth.runs ws hb hempty
  · rintro z ⟨x, hx, hz⟩ ⟨c, hc, hz'⟩
    exact hz.disjoint_lifted hB hfile (hB.mem_lifted_iff.mp hx).2
      (forward?_of_mem_lifted hB hhome hfile hx).1
      (mem_childIds_of_mem_inlineChildren hc)
      (forward?_of_mem_inlineChildren hc) hz'

end Whole

end Components

end Build

end LightHeaders
