import LightHeaders.Proofs.LazyLoading

set_option autoImplicit false

/-! # What a dotted name means

A dotted name has a meaning without any run (`Workspace.Means`): a native function if it is spelled like
one; otherwise the nearest component around that has a child named like the first segment decides, and
the segments lead down from there, child by child. Where they end too early the meaning is the part of
the name that is missing. There is no second try further out.

In a workspace where all files are loaded each name has one meaning, and resolving the name gives just
that. Both ways to resolve do, the one that fails for a missing name and the one that gives nothing
(`History.targetNamed_iff_means`).
-/

namespace LightHeaders

open Text Build

/-! ## Names of native functions -/

/-- The name is that of a native function: one segment, in which the library has no underscore and
neither part is empty. -/
structure CFunction.Spells (f : CFunction) (name : String) : Prop where
  text : name.toList = "__c_".toList ++ f.library.toList ++ '_' :: f.name.toList
  library : f.library ≠ "" ∧ '_' ∉ f.library.toList
  function : f.name ≠ ""
  single : '.' ∉ name.toList

variable {f : CFunction} {sep : Char} {name s : String}

theorem CFunction.parse?_eq_some_iff :
    CFunction.parse? name = some f ↔
      name.toList = "__c_".toList ++ f.library.toList ++ '_' :: f.name.toList ∧
        (f.library ≠ "" ∧ '_' ∉ f.library.toList) ∧ f.name ≠ "" := by
  obtain ⟨library, function⟩ := f
  constructor
  · intro h
    simp only [parse?, Option.bind_eq_bind, Option.bind_eq_some_iff] at h
    obtain ⟨rest, hrest, ⟨front, back⟩, hcut, h⟩ := h
    obtain ⟨hfront, rfl⟩ := Line.cutFirst?_eq_some hcut
    split at h
    · cases h
    · next hne =>
      simp only [Option.some.injEq, CFunction.mk.injEq] at h
      obtain ⟨rfl, rfl⟩ := h
      simp only [Bool.or_eq_true, List.isEmpty_iff, not_or] at hne
      refine ⟨?_, ⟨?_, by simpa using hfront⟩, ?_⟩
      · simpa [cMark] using (List.isPrefixOf?_eq_some_iff_append_eq.mp hrest).symm
      · simpa using hne.1
      · simpa using hne.2
  · rintro ⟨htext, ⟨hlibrary, hunder⟩, hfunction⟩
    have hrest : cMark.isPrefixOf? name.toList = some (library.toList ++ '_' :: function.toList) :=
      List.isPrefixOf?_eq_some_iff_append_eq.mpr (by simp [htext, cMark])
    simp only [parse?, Option.bind_eq_bind, hrest, Option.bind_some, Line.cutFirst?_append hunder]
    simp [hlibrary, hfunction]

theorem pieces_of_not_mem (h : sep ∉ s.toList) : pieces sep s = [s] := by
  rw [pieces, splitAt_of_not_mem h]
  simp

theorem not_mem_of_pieces {piece : String} (h : pieces sep s = [piece]) :
    s = piece ∧ sep ∉ s.toList := by
  obtain ⟨cs, hcs, rfl⟩ := List.map_eq_singleton_iff.mp h
  have hjoin := join_splitAt sep s.toList
  rw [hcs] at hjoin
  have hsame : s.toList = cs := hjoin.symm
  refine ⟨by rw [← hsame, String.ofList_toList], ?_⟩
  rw [hsame]
  exact not_mem_of_mem_splitAt sep s.toList cs (by rw [hcs]; exact List.mem_singleton_self cs)

theorem Build.cFunctionOf?_eq_some_iff :
    cFunctionOf? (pieces '.' name) = some f ↔ f.Spells name := by
  constructor
  · intro h
    unfold cFunctionOf? at h
    split at h
    · next single hsingle =>
      obtain ⟨rfl, hdot⟩ := not_mem_of_pieces hsingle
      obtain ⟨htext, hlibrary, hfunction⟩ := CFunction.parse?_eq_some_iff.mp h
      exact ⟨htext, hlibrary, hfunction, hdot⟩
    · cases h
  · intro h
    rw [pieces_of_not_mem h.single]
    exact CFunction.parse?_eq_some_iff.mpr ⟨h.text, h.library, h.function⟩

/-! ## The nearest component around -/

namespace Workspace

/-- The component has a child of that name. -/
def HasChild (ws : Workspace) (name : String) (a : ComponentId) : Prop :=
  ∃ c, (ws.component a).child? name = some c

variable {ws : Workspace}

variable {P : ComponentId → Prop} {a b start : ComponentId}

/-- The search through the components around finds the child of the nearest one that has it. -/
theorem Sound.nearest?_eq_some_iff (hs : ws.Sound) {x : ComponentId} :
    ws.nearest? start name = some x ↔
      ∃ scope, ws.Nearest (ws.HasChild name) start scope ∧ (ws.component scope).child? name = some x := by
  induction start using Nat.strongRecOn with
  | ind start ih =>
    rw [nearest?, hs.enclosing_eq, List.findSome?_cons]
    cases hchild : (ws.component start).child? name with
    | some c =>
      constructor
      · rintro ⟨⟩
        exact ⟨start, .here ⟨_, hchild⟩, hchild⟩
      · rintro ⟨scope, hscope, hx⟩
        rw [hscope.unique (.here ⟨c, hchild⟩), hchild] at hx
        exact hx
    | none =>
      have hfails : ¬ws.HasChild name start := by
        rintro ⟨c, hc⟩
        rw [hchild] at hc
        cases hc
      cases hparent : (ws.component start).parent? with
      | none =>
        constructor
        · rintro ⟨⟩
        · rintro ⟨scope, hscope | ⟨-, hp, -⟩, -⟩
          · exact absurd hscope hfails
          · rw [hparent] at hp
            cases hp
      | some p =>
        refine (ih p (hs.parent_lt hparent)).trans ⟨?_, ?_⟩
        · rintro ⟨scope, hscope, hx⟩
          exact ⟨scope, .above hfails hparent hscope, hx⟩
        · rintro ⟨scope, hscope | ⟨-, hp, houter⟩, hx⟩
          · exact absurd hscope hfails
          · rw [hparent] at hp
            cases hp
            exact ⟨scope, houter, hx⟩

theorem Sound.fileOf?_eq_some_iff (hs : ws.Sound) {file : ComponentId} :
    ws.fileOf? start = some file ↔ ws.Nearest (fun a => ws.isFile a = true) start file := by
  induction start using Nat.strongRecOn with
  | ind start ih =>
    rw [hs.fileOf?_eq]
    split
    · next hfile =>
      constructor
      · rintro ⟨⟩
        exact .here hfile
      · intro h
        rw [h.unique (.here hfile)]
    · next hfile =>
      cases hparent : (ws.component start).parent? with
      | none =>
        constructor
        · rintro ⟨⟩
        · rintro (h | ⟨-, hp, -⟩)
          · exact absurd h hfile
          · rw [hparent] at hp
            cases hp
      | some p =>
        refine (ih p (hs.parent_lt hparent)).trans ⟨.above hfile hparent, ?_⟩
        rintro (h | ⟨-, hp, houter⟩)
        · exact absurd h hfile
        · rw [hparent] at hp
          cases hp
          exact houter

/-! ## Meanings -/

/-- What a dotted name means where it stands. -/
inductive Means (ws : Workspace) (start : ComponentId) (name : String) : Resolution → Prop
  | native {f : CFunction} (spells : f.Spells name) : Means ws start name (.found (.native f))
  | component {first : String} {rest : List String} {scope c : ComponentId}
      (plain : ∀ f : CFunction, ¬f.Spells name) (segments : pieces '.' name = first :: rest)
      (nearest : ws.Nearest (ws.HasChild first) start scope)
      (path : ws.childAt? scope (first :: rest) = some c) : Means ws start name (.found (.component c))
  /-- No component around has a child that is named like the first segment. -/
  | unknown {first : String} {rest : List String} (plain : ∀ f : CFunction, ¬f.Spells name)
      (segments : pieces '.' name = first :: rest)
      (none : ∀ scope, ¬ws.Nearest (ws.HasChild first) start scope) : Means ws start name (.missing first)
  /-- The first `k` segments lead somewhere and the next one does not. -/
  | broken {first : String} {rest : List String} {scope d : ComponentId} {k : Nat}
      (plain : ∀ f : CFunction, ¬f.Spells name) (segments : pieces '.' name = first :: rest)
      (nearest : ws.Nearest (ws.HasChild first) start scope) (lt : k < (first :: rest).length)
      (there : ws.childAt? scope ((first :: rest).take k) = some d)
      (gone : ws.childAt? scope ((first :: rest).take (k + 1)) = none) :
      Means ws start name (.missing (glue "." ((first :: rest).take (k + 1))))

theorem exists_of_childAt?_eq_none {names : List String} (h : ws.childAt? a names = none) :
    ∃ k d, k < names.length ∧
      ws.childAt? a (names.take k) = some d ∧ ws.childAt? a (names.take (k + 1)) = none := by
  induction names generalizing a with
  | nil => cases h
  | cons name rest ih =>
    rw [childAt?] at h
    cases hchild : (ws.component a).child? name with
    | none => exact ⟨0, a, Nat.succ_pos _, rfl, by rw [List.take_succ_cons, childAt?, hchild]⟩
    | some c =>
      rw [hchild] at h
      obtain ⟨k, d, hk, hthere, hgone⟩ := ih h
      refine ⟨k + 1, d, Nat.succ_lt_succ hk, ?_, ?_⟩
      · rw [List.take_succ_cons, childAt?, hchild]
        exact hthere
      · rw [List.take_succ_cons, childAt?, hchild]
        exact hgone

theorem exists_means (ws : Workspace) (start : ComponentId) (name : String) :
    ∃ r, ws.Means start name r := by
  by_cases hnative : ∃ f : CFunction, f.Spells name
  · obtain ⟨f, hf⟩ := hnative
    exact ⟨_, .native hf⟩
  · rw [not_exists] at hnative
    cases hsegments : pieces '.' name with
    | nil => exact absurd (List.map_eq_nil_iff.mp hsegments) (splitAt_ne_nil _ _)
    | cons first rest =>
      by_cases hscope : ∃ scope, ws.Nearest (ws.HasChild first) start scope
      · obtain ⟨scope, hscope⟩ := hscope
        cases hpath : ws.childAt? scope (first :: rest) with
        | some c => exact ⟨_, .component hnative hsegments hscope hpath⟩
        | none =>
          obtain ⟨k, d, hk, hthere, hgone⟩ := exists_of_childAt?_eq_none hpath
          exact ⟨_, .broken hnative hsegments hscope hk hthere hgone⟩
      · exact ⟨_, .unknown hnative hsegments (not_exists.mp hscope)⟩

/-- What resolving a name leaves: the library of a native function is noted. -/
def notingAny (ws : Workspace) (start : ComponentId) : Resolution → Workspace
  | .found t => ws.noting start t
  | .missing _ => ws

end Workspace

/-! ## Resolving -/

namespace Build

variable {ws : Workspace}

/-- Going down gives what the segments lead to, or the part up to the first that leads nowhere. -/
theorem descend_eq_of_loaded (hl : ws.Loaded) (segments : List String) (found : ComponentId)
    (read : List String) :
    (∀ c, ws.childAt? found segments = some c →
      descend load found read segments ws = .ok (.found (.component c)) ws) ∧
    (∀ k d, k < segments.length → ws.childAt? found (segments.take k) = some d →
      ws.childAt? found (segments.take (k + 1)) = none →
      descend load found read segments ws =
        .ok (.missing (glue "." (read ++ segments.take (k + 1)))) ws) := by
  induction segments generalizing found read with
  | nil =>
    refine ⟨?_, fun k _ hk => absurd hk (Nat.not_lt_zero k)⟩
    rintro c ⟨⟩
    rfl
  | cons segment rest ih =>
    rw [descend_cons, bind_of_ok (load_of_loaded hl found), bind_component, Workspace.childAt?]
    cases hchild : (ws.component found).child? segment with
    | none =>
      refine ⟨?_, ?_⟩
      · rintro c ⟨⟩
      · intro k d hk hthere hgone
        cases k with
        | zero => rfl
        | succ k =>
          rw [List.take_succ_cons, Workspace.childAt?, hchild] at hthere
          cases hthere
    | some child =>
      obtain ⟨hfound, hmissing⟩ := ih child (read ++ [segment])
      refine ⟨hfound, ?_⟩
      intro k d hk hthere hgone
      rw [List.take_succ_cons, Workspace.childAt?, hchild] at hgone
      cases k with
      | zero => cases hgone
      | succ k =>
        rw [List.take_succ_cons, Workspace.childAt?, hchild] at hthere
        have hrun := hmissing k d (Nat.lt_of_succ_lt_succ hk) hthere hgone
        rw [List.append_assoc, List.singleton_append] at hrun
        exact hrun

variable {start : ComponentId} {r : Resolution} {name : String} {α : Type} {ws' : Workspace}

/-- **Resolving a name gives its meaning.** -/
theorem lookUp_of_means (hs : ws.Sound) (hl : ws.Loaded) (h : ws.Means start name r) :
    lookUp start name ws = .ok r (ws.notingAny start r) := by
  have hplain : (∀ f : CFunction, ¬f.Spells name) → cFunctionOf? (pieces '.' name) = none := fun hno =>
    Option.eq_none_iff_forall_ne_some.mpr fun f hf => hno f (cFunctionOf?_eq_some_iff.mp hf)
  cases h with
  | native spells => exact lookUp_native (cFunctionOf?_eq_some_iff.mpr spells)
  | unknown plain segments none =>
    have hnearest : ws.nearest? start _ = Option.none :=
      Option.eq_none_iff_forall_ne_some.mpr fun x hx => by
        obtain ⟨scope, hscope, -⟩ := hs.nearest?_eq_some_iff.mp hx
        exact none scope hscope
    rw [lookUp_of_pieces (hplain plain) segments, hnearest]
    rfl
  | component plain segments nearest path =>
    obtain ⟨c, hc⟩ := nearest.holds
    rw [Workspace.childAt?, hc] at path
    rw [lookUp_of_pieces (hplain plain) segments, hs.nearest?_eq_some_iff.mpr ⟨_, nearest, hc⟩]
    exact (descend_eq_of_loaded hl _ c _).1 _ path
  | @broken first rest scope d k plain segments nearest lt there gone =>
    obtain ⟨c, hc⟩ := nearest.holds
    rw [lookUp_of_pieces (hplain plain) segments, hs.nearest?_eq_some_iff.mpr ⟨_, nearest, hc⟩]
    rw [List.take_succ_cons, Workspace.childAt?, hc] at gone
    cases k with
    | zero => cases gone
    | succ k =>
      rw [List.take_succ_cons, Workspace.childAt?, hc] at there
      exact (descend_eq_of_loaded hl rest c [first]).2 k d (Nat.lt_of_succ_lt_succ lt) there gone

theorem means_unique (hs : ws.Sound) (hl : ws.Loaded) {r' : Resolution} (h : ws.Means start name r)
    (h' : ws.Means start name r') : r = r' := by
  have heq := (lookUp_of_means hs hl h).symm.trans (lookUp_of_means hs hl h')
  cases heq
  rfl

theorem targetNamed_of_found {t : Target} (h : lookUp start name ws = .ok (.found t) ws') :
    targetNamed start name ws = .ok t ws' ∧ targetNamed? start name ws = .ok (some t) ws' := by
  constructor
  · unfold targetNamed targetWith
    exact bind_of_ok h
  · unfold targetNamed?
    exact bind_of_ok h

theorem targetNamed_of_missing {path : String} (h : lookUp start name ws = .ok (.missing path) ws') :
    targetNamed start name ws = .error (.unknownName path) ws' ∧
      targetNamed? start name ws = .ok none ws' := by
  constructor
  · unfold targetNamed targetWith
    exact bind_of_ok h
  · unfold targetNamed?
    exact bind_of_ok h

theorem targetNamed?_iff_of_lookUp {ws₁ : Workspace} (h : lookUp start name ws = .ok r ws₁) :
    (∀ t ws', targetNamed? start name ws = .ok (some t) ws' ↔ targetNamed start name ws = .ok t ws') ∧
    (∀ ws', targetNamed? start name ws = .ok none ws' ↔
      ∃ path, targetNamed start name ws = .error (.unknownName path) ws') ∧
    ∀ e ws', targetNamed? start name ws ≠ .error e ws' := by
  cases r with
  | found t =>
    obtain ⟨hone, hany⟩ := targetNamed_of_found h
    rw [hone, hany]
    simp
  | missing path =>
    obtain ⟨hone, hany⟩ := targetNamed_of_missing h
    rw [hone, hany]
    simp

end Build

namespace Workspace

variable {ws : Workspace}

variable {c : ComponentId}

theorem exists_child?_of_childAt? {names : List String} {a : ComponentId}
    (h : ws.childAt? a (name :: names) = some c) : ∃ p last, (ws.component p).child? last = some c := by
  induction names generalizing a name with
  | nil =>
    rw [childAt?] at h
    split at h
    · next child hchild =>
      cases h
      exact ⟨a, name, hchild⟩
    · cases h
  | cons next rest ih =>
    rw [childAt?] at h
    split at h
    · exact ih h
    · cases h

/-- What was replaced by a later child of the same name is never found. -/
theorem Sound.not_means_of_replaced (hs : ws.Sound) {start p : ComponentId}
    (hparent : (ws.component c).parent? = some p)
    (hreplaced : (ws.component p).child? (ws.component c).name ≠ some c) :
    ¬ws.Means start name (.found (.component c)) := by
  intro h
  cases h with
  | component _ _ _ path =>
    obtain ⟨q, last, hq⟩ := exists_child?_of_childAt? path
    obtain ⟨-, hparent', hname, -⟩ := hs.child hq
    rw [hparent] at hparent'
    cases hparent'
    rw [hname] at hreplaced
    exact hreplaced hq

end Workspace

/-- **Names resolve to what they mean.** In every history, where all files are loaded: each name has one
meaning; what it leads to is found, and then the library of a native function is noted in the nearest
file and nothing else changes; a name that leads nowhere fails with the part that is missing and changes
nothing; where a missing name is allowed for, that is the only difference; and what was replaced is
never found. -/
theorem History.targetNamed_iff_means {A : Workspace → Call → Prop} {ws : Workspace} (h : History A ws)
    (hl : ws.Loaded) (start : ComponentId) (name : String) :
    (∃! r, ws.Means start name r) ∧
    (∀ t ws', Build.targetNamed start name ws = .ok t ws' ↔
      ws.Means start name (.found t) ∧ ws' = ws.noting start t) ∧
    (∀ e ws', Build.targetNamed start name ws = .error e ws' ↔
      ∃ path, ws.Means start name (.missing path) ∧ e = .unknownName path ∧ ws' = ws) ∧
    (∀ t ws', Build.targetNamed? start name ws = .ok (some t) ws' ↔
      Build.targetNamed start name ws = .ok t ws') ∧
    (∀ ws', Build.targetNamed? start name ws = .ok none ws' ↔
      ∃ path, Build.targetNamed start name ws = .error (.unknownName path) ws') ∧
    (∀ e ws', Build.targetNamed? start name ws ≠ .error e ws') ∧
    (∀ f : CFunction, (∀ file, ¬ws.Nearest (fun a => ws.isFile a = true) start file) →
      ws.noting start (.native f) = ws) ∧
    (∀ (f : CFunction) file, ws.Nearest (fun a => ws.isFile a = true) start file →
      ws.noting start (.native f) = ws.modify file fun c =>
        { c with kind := c.kind.mapFile (FileEdit.library f.library).apply }) ∧
    (∀ c p ws', (ws.component c).parent? = some p →
      (ws.component p).child? (ws.component c).name ≠ some c →
      Build.targetNamed start name ws ≠ .ok (.component c) ws') := by
  have hs := h.sound
  obtain ⟨r, hr⟩ := ws.exists_means start name
  have hunique : ∀ r', ws.Means start name r' → r' = r := fun r' hr' => means_unique hs hl hr' hr
  have hrun := lookUp_of_means hs hl hr
  have hok : ∀ t ws', Build.targetNamed start name ws = .ok t ws' ↔
      ws.Means start name (.found t) ∧ ws' = ws.noting start t := by
    intro t ws'
    constructor
    · intro hok
      cases r with
      | found t₀ =>
        rw [(targetNamed_of_found hrun).1] at hok
        cases hok
        exact ⟨hr, rfl⟩
      | missing path =>
        rw [(targetNamed_of_missing hrun).1] at hok
        cases hok
    · rintro ⟨ht, rfl⟩
      exact (targetNamed_of_found (lookUp_of_means hs hl ht)).1
  have herror : ∀ e ws', Build.targetNamed start name ws = .error e ws' ↔
      ∃ path, ws.Means start name (.missing path) ∧ e = .unknownName path ∧ ws' = ws := by
    intro e ws'
    constructor
    · intro herror
      cases r with
      | found t =>
        rw [(targetNamed_of_found hrun).1] at herror
        cases herror
      | missing path =>
        rw [(targetNamed_of_missing hrun).1] at herror
        cases herror
        exact ⟨path, hr, rfl, rfl⟩
    · rintro ⟨path, hpath, rfl, rfl⟩
      exact (targetNamed_of_missing (lookUp_of_means hs hl hpath)).1
  obtain ⟨hsome, hnone, hnever⟩ := targetNamed?_iff_of_lookUp hrun
  refine ⟨⟨r, hr, hunique⟩, hok, herror, hsome, hnone, hnever, ?_, ?_, ?_⟩
  · intro f hnone
    have hfile : ws.fileOf? start = none := Option.eq_none_iff_forall_ne_some.mpr fun file hfile =>
      hnone file (hs.fileOf?_eq_some_iff.mp hfile)
    rw [Workspace.noting, hfile]
  · intro f file hfile
    rw [Workspace.noting, hs.fileOf?_eq_some_iff.mpr hfile]
    rfl
  · intro c p ws' hparent hreplaced hfound
    exact hs.not_means_of_replaced hparent hreplaced ((hok _ _).mp hfound).1

/-- A namespace inside another one of the same name, which hides it from the function beside it also
where it does not have what is asked for; a native function; and a function that is declared twice. -/
theorem History.targetNamed_iff_means_shadowed :
    let disk : Disk := ⟨[(["f.light"], .file (.text
      "namespace n\n namespace n\n  function h\n function h\n function k\nfunction q\nfunction q\n"))],
      ⟨"/"⟩⟩
    let ws := Call.play [.registerProject "p" ⟨"/"⟩ ⟨"/o"⟩ .plain, .load 0, .load 1]
      (Workspace.new {} disk [.light, .cpp])
    History (fun _ _ => True) ws ∧ ws.Loaded ∧ ws.Means 6 "n.h" (.found (.component 4)) ∧
      ws.Means 6 "n.k.x" (.missing "n.k") ∧
      ws.Means 6 "__c_stdio_printf" (.found (.native ⟨"stdio", "printf"⟩)) ∧
      (∀ ws', Build.targetNamed 6 "q" ws ≠ .ok (.component 7) ws') ∧
      ∃ ws', Build.targetNamed? 6 "q.x" ws = .ok none ws' := by
  intro disk ws
  have hhistory : History (fun _ _ => True) ws := .play (by decide +kernel)
  obtain ⟨hl, hinner, hbroken, hnative, hparent, hreplaced, hnone⟩ : ws.Loaded ∧
      (Build.targetNamed 6 "n.h").outcome ws = .ok (.component 4) ∧
      (Build.targetNamed 6 "n.k.x").outcome ws = .error (.unknownName "n.k") ∧
      (Build.targetNamed 6 "__c_stdio_printf").outcome ws = .ok (.native ⟨"stdio", "printf"⟩) ∧
      (ws.component 7).parent? = some 1 ∧ (ws.component 1).child? (ws.component 7).name ≠ some 7 ∧
      (Build.targetNamed 6 "q.x").outcome ws = .error (.unknownName "q.x") := by decide +kernel
  clear_value ws
  have hmeans := hhistory.targetNamed_iff_means hl 6
  refine ⟨hhistory, hl, ?_, ?_, ?_, ?_, ?_⟩
  · exact (((hmeans "n.h").2.1 _ _).mp (ok_of_outcome hinner)).1
  · obtain ⟨path, hpath, heq, -⟩ := ((hmeans "n.k.x").2.2.1 _ _).mp (error_of_outcome hbroken)
    cases heq
    exact hpath
  · exact (((hmeans "__c_stdio_printf").2.1 _ _).mp (ok_of_outcome hnative)).1
  · exact fun ws' => (hmeans "q").2.2.2.2.2.2.2.2 7 1 ws' hparent hreplaced
  · exact ⟨_, ((hmeans "q.x").2.2.2.2.1 _).mpr ⟨_, error_of_outcome hnone⟩⟩

end LightHeaders
