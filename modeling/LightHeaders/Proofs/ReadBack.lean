import LightHeaders.Proofs.Descent
import LightHeaders.Proofs.Histories
import LightHeaders.Proofs.Words

set_option autoImplicit false

/-! # Spellings read back

A component is spelled by the names of the components around it in its file, with `::` between them.
Where a spelling stands, it is not said that its first name is meant from the scope of the file on; so
read by the rule for dotted names it leads back to the component just if nothing nearer to the
reference has a child of that first name (`History.spelling_leads_back_iff`). From the file itself it
always leads back, and no file is loaded on the way (`History.qualifiedName_leads_back`).
-/

namespace LightHeaders

open Text Build

/-! ## Spellings as dotted names -/

namespace Text

/-- The text with a dot in the place of each `::`. -/
def dotted : List Char → List Char
  | ':' :: ':' :: cs => '.' :: dotted cs
  | c :: cs => c :: dotted cs
  | [] => []

theorem dotted_cons_of_ne {c : Char} (h : c ≠ ':') (cs : List Char) :
    dotted (c :: cs) = c :: dotted cs := by
  rw [dotted]
  rintro rest rfl
  exact absurd rfl h

theorem dotted_append {word : List Char} (h : ':' ∉ word) (cs : List Char) :
    dotted (word ++ cs) = word ++ dotted cs := by
  induction word with
  | nil => rfl
  | cons c word ih =>
    rw [List.mem_cons, not_or] at h
    rw [List.cons_append, dotted_cons_of_ne (Ne.symm h.1), ih h.2, List.cons_append]

/-- The words of a spelling are the pieces of the dotted name. -/
theorem splitAt_dotted_join {words : List (List Char)} (hne : words ≠ []) (hdot : ∀ w ∈ words, '.' ∉ w)
    (hcolon : ∀ w ∈ words, ':' ∉ w) :
    splitAt '.' (dotted (join [':', ':'] words)) = words := by
  induction words with
  | nil => exact absurd rfl hne
  | cons word words ih =>
    have hword := hcolon word (.head _)
    have hpiece := hdot word (.head _)
    cases words with
    | nil =>
      have hend : dotted word = word := by simpa [dotted] using dotted_append hword []
      rw [join, hend, splitAt_of_not_mem hpiece]
    | cons next words =>
      have hrest := ih (List.cons_ne_nil _ _) (fun w hw => hdot w (.tail _ hw))
        (fun w hw => hcolon w (.tail _ hw))
      rw [join, List.append_assoc, dotted_append hword]
      show splitAt '.' (word ++ '.' :: dotted (join [':', ':'] (next :: words))) = _
      rw [splitAt_append_cons hpiece, hrest]

end Text

/-- A spelling as a dotted name. -/
def readBack (spelling : String) : String := String.ofList (dotted spelling.toList)

/-- The name holds neither a dot nor a colon, and stands for no native function. -/
def PlainName (name : String) : Prop :=
  '.' ∉ name.toList ∧ ':' ∉ name.toList ∧ CFunction.parse? name = none

instance (name : String) : Decidable (PlainName name) := inferInstanceAs (Decidable (_ ∧ _))

variable {names : List String}

theorem pieces_readBack (hne : names ≠ []) (hplain : ∀ n ∈ names, PlainName n) :
    pieces '.' (readBack (glue "::" names)) = names := by
  have hwords : splitAt '.' (dotted (join [':', ':'] (names.map String.toList))) =
      names.map String.toList := by
    refine splitAt_dotted_join (by simpa using hne) ?_ ?_
    · intro w hw
      obtain ⟨n, hn, rfl⟩ := List.mem_map.mp hw
      exact (hplain n hn).1
    · intro w hw
      obtain ⟨n, hn, rfl⟩ := List.mem_map.mp hw
      exact (hplain n hn).2.1
  show (splitAt '.' (String.ofList (dotted (String.ofList _).toList)).toList).map String.ofList = _
  rw [String.toList_ofList, String.toList_ofList]
  show (splitAt '.' (dotted (join [':', ':'] (names.map String.toList)))).map String.ofList = _
  rw [hwords, List.map_map]
  simp

namespace Workspace

variable {ws : Workspace}

/-! ## What a component is spelled by -/

theorem takeWhile_eq_of_stop {α : Type} [DecidableEq α] {p : α → Bool} {stop : α} {l : List α}
    (hstop : p stop = false) (h : ∀ a ∈ l.takeWhile (· ≠ stop), p a = true) :
    l.takeWhile p = l.takeWhile (· ≠ stop) := by
  induction l with
  | nil => rfl
  | cons a l ih =>
    by_cases ha : a = stop
    · subst ha
      rw [List.takeWhile_cons_of_neg (by simp [hstop]), List.takeWhile_cons_of_neg (by simp)]
    · have htake : (a :: l).takeWhile (· ≠ stop) = a :: l.takeWhile (· ≠ stop) :=
        List.takeWhile_cons_of_pos (by simpa using ha)
      rw [htake] at h ⊢
      rw [List.takeWhile_cons_of_pos (h a (.head _)),
        ih fun b hb => h b (.tail _ hb)]

theorem eq_false_of_mem_takeWhile {α : Type} [DecidableEq α] {p : α → Bool} {stop a : α} {l : List α}
    (hfind : l.find? p = some stop) (ha : a ∈ l.takeWhile (· ≠ stop)) : p a = false := by
  induction l with
  | nil => cases ha
  | cons b l ih =>
    cases hb : p b with
    | true =>
      rw [List.find?_cons_of_pos hb] at hfind
      cases hfind
      simp at ha
    | false =>
      rw [List.find?_cons_of_neg (by simp [hb])] at hfind
      rw [List.takeWhile_cons] at ha
      split at ha
      · rcases List.mem_cons.mp ha with rfl | ha
        · exact hb
        · exact ih hfind ha
      · cases ha

theorem isFile_of_mem_within {f c a : ComponentId} (hc : ws.fileOf? c = some f)
    (ha : a ∈ ws.within f c) : ws.isFile a = false :=
  eq_false_of_mem_takeWhile hc ha

namespace Sound

variable (hs : ws.Sound)

include hs

variable {c f x : ComponentId}

/-- **A component in containers only is spelled by the names on the way from its file.** -/
theorem spelling_eq (hc : ws.fileOf? c = some f) (hne : c ≠ f)
    (hcontainers : ∀ a ∈ (ws.within f c).tail, (ws.kind a).isContainer = true) :
    ws.spelling (.component c) = glue "::" (ws.namesWithin f c) := by
  have hself : ws.enclosing c = c :: (ws.enclosing c).tail := by
    rw [hs.enclosing_eq, List.tail_cons]
  have hwithin : ws.within f c = c :: (ws.enclosing c).tail.takeWhile (· ≠ f) := by
    rw [within, hself, List.tail_cons]
    exact List.takeWhile_cons_of_pos (by simpa using hne)
  have hscopes : (ws.enclosing c).tail.takeWhile ws.isQualifier =
      (ws.enclosing c).tail.takeWhile (· ≠ f) := by
    refine takeWhile_eq_of_stop (by simp [isQualifier, isFile_of_fileOf? hc]) fun a ha => ?_
    have htail : a ∈ (ws.within f c).tail := by rwa [hwithin, List.tail_cons]
    simp [isQualifier, hcontainers a htail, isFile_of_mem_within hc (List.mem_of_mem_tail htail)]
  show glue "::" ((c :: (ws.enclosing c).tail.takeWhile ws.isQualifier).reverse.map _) = _
  rw [hscopes, ← hwithin, namesWithin]

/-! ## What a spelling leads to -/

/-- **What a name leads to is declared in the file of the reference, if it is in that file at
all.** -/
theorem below_of_targetAt? {name : String} (hx : ws.Below f x) (hc : f ∈ ws.enclosing c)
    (h : ws.targetAt? x name = some (.component c)) : ws.Below f c := by
  rw [targetAt?] at h
  split at h
  · cases h
  split at h
  · cases h
  · next first rest _ =>
    obtain ⟨c', hc', heq⟩ := Option.map_eq_some_iff.mp h
    cases heq
    obtain ⟨found, hfound, hrest⟩ := Option.bind_eq_some_iff.mp hc'
    obtain ⟨scope, hscope, hchild⟩ := List.exists_of_findSome?_eq_some hfound
    have hdown : ws.Below scope c :=
      (Below.child .refl (hs.child hchild).2.2.2).trans (hs.below_of_childAt? hrest)
    -- the scope that decides is inside the file, or around it
    rcases hs.enclosing_linear hscope (hs.mem_enclosing_of_below hx) with habove | hinside
    · exact (hs.below_of_between hdown hc habove).2
    · exact (hs.below_of_between hx hscope hinside).1.trans hdown

/-- **A row of names from a file down leads from inside the file to the same component just if
nothing nearer has a child of the first name.** -/
theorem nearest?_bind_eq_iff (hx : ws.Below f x) {first : String} {rest : List String}
    (hc : ws.childAt? f (first :: rest) = some c) :
    ((ws.nearest? x first).bind fun found => ws.childAt? found rest) = some c ↔
      ∀ s ∈ ws.within f x, (ws.component s).child? first = none := by
  have hnearest : ws.nearest? x first =
      ((ws.within f x).findSome? fun s => (ws.component s).child? first).or (ws.nearest? f first) := by
    rw [nearest?, hs.enclosing_eq_append hx, List.findSome?_append, nearest?]
  constructor
  · intro hleads s hmem
    cases hnear : (ws.within f x).findSome? fun s => (ws.component s).child? first with
    | none => exact List.findSome?_eq_none_iff.mp hnear s hmem
    | some found =>
      -- a nearer child would have to stand where the one in the file stands
      rw [hnearest, hnear, Option.some_or, Option.bind_some] at hleads
      obtain ⟨scope, hscope, hchild⟩ := List.exists_of_findSome?_eq_some hnear
      have hdown : ws.childAt? scope (first :: rest) = some c := by
        rw [childAt?, hchild]
        exact hleads
      exact absurd (hs.eq_of_childAt? hdown hc) (ne_of_mem_within hscope)
  · intro hnone
    rw [childAt?] at hc
    split at hc
    · next top htop =>
      have hfile : ws.nearest? f first = some top := by
        rw [nearest?, hs.enclosing_eq, List.findSome?_cons, htop]
      rw [hnearest, List.findSome?_eq_none_iff.mpr hnone, Option.none_or, hfile]
      exact hc
    · cases hc

end Sound

end Workspace

theorem Build.cFunctionOf?_of_plain (h : ∀ n ∈ names, PlainName n) : cFunctionOf? names = none := by
  unfold cFunctionOf?
  split
  · next single => exact (h single (.head _)).2.2
  · rfl

/-- **A spelling leads back to what it stands for just if its first name is not taken nearer.** Let a name
in `x` lead to a component of the same file `f` that is in containers only. Read from `x` on, the
spelling leads to that component again if and only if no component around `x` inside `f`, `x` itself
included, has a child with the first name of the spelling. -/
theorem History.spelling_leads_back_iff {ws ws₁ : Workspace} (h : History (fun _ _ => True) ws)
    (hl : ws.Loaded) {f x c : ComponentId} {name first : String} (hx : ws.DeclaredIn f x)
    (hleads : Build.targetNamed x name ws = .ok (.component c) ws₁)
    (hc : ws.fileOf? c = some f) (hne : c ≠ f)
    (hcontainers : ∀ a ∈ (ws.within f c).tail, (ws.kind a).isContainer = true)
    (hplain : ∀ a ∈ ws.within f c, PlainName (ws.component a).name)
    (hfirst : (ws.namesWithin f c).head? = some first) :
    Build.targetNamed x (readBack (ws.spelling (.component c))) ws = .ok (.component c) ws ↔
      ∀ s ∈ ws.within f x, (ws.component s).child? first = none := by
  have hs := h.sound
  have hbelow := Workspace.below_of_declaredIn hx
  have hdown : ws.Below f c := hs.below_of_targetAt? hbelow (List.mem_of_find?_eq_some hc)
    (targetNamed_of_loaded hl hleads).1
  obtain ⟨rest, hnames⟩ : ∃ rest, ws.namesWithin f c = first :: rest :=
    ⟨_, List.eq_cons_of_mem_head? hfirst⟩
  have hwords : ∀ n ∈ first :: rest, PlainName n := by
    intro n hn
    rw [← hnames] at hn
    obtain ⟨a, ha, rfl⟩ := List.mem_map.mp hn
    exact hplain a (List.mem_reverse.mp ha)
  have hat := hs.childAt?_namesWithin hdown
  rw [hnames] at hat
  -- the spelling is cut into the names on the way from the file
  have htarget : ws.targetAt? x (readBack (ws.spelling (.component c))) =
      ((ws.nearest? x first).bind fun found => ws.childAt? found rest).map .component := by
    rw [hs.spelling_eq hc hne hcontainers, hnames, Workspace.targetAt?,
      pieces_readBack (List.cons_ne_nil _ _) hwords, cFunctionOf?_of_plain hwords]
  rw [← hs.nearest?_bind_eq_iff hbelow hat]
  constructor
  · intro hback
    have hcomponent := htarget.symm.trans (targetNamed_of_loaded hl hback).1
    obtain ⟨c', hc', heq⟩ := Option.map_eq_some_iff.mp hcomponent
    cases heq
    exact hc'
  · intro hback
    exact targetNamed_eq_of_loaded hl (by rw [htarget, hback]; rfl)

/-- A namespace in a namespace: from a function beside the inner one its contents are called by a short
name, and the full spelling leads there too. -/
theorem History.spelling_leads_back_nested :
    let source := "namespace n\n namespace m\n  function h\n function k\n  call m.h\n"
    let disk : Disk := ⟨[(["work"], .directory), (["a.light"], .file (.text source))], ⟨"/work"⟩⟩
    let ws := Call.play [.addFile none "a" ⟨"/a.light"⟩, .load 0] (Workspace.new {} disk [.light])
    ws.targetAt? 5 "m.h" = some (.component 3) ∧ ws.spelling (.component 3) = "n::m::h" ∧
      Build.targetNamed 5 (readBack (ws.spelling (.component 3))) ws = .ok (.component 3) ws := by
  intro source disk ws
  have hhistory : History (fun _ _ => True) ws := .play (by decide +kernel)
  obtain ⟨hl, hx, hleads, hfile, hcontainers, hplain, hfirst, hfree, hspelling⟩ : ws.Loaded ∧ 5 ∈ ws.walk 0 ∧
      ws.targetAt? 5 "m.h" = some (.component 3) ∧ ws.fileOf? 3 = some 0 ∧
      (∀ a ∈ (ws.within 0 3).tail, (ws.kind a).isContainer = true) ∧
      (∀ a ∈ ws.within 0 3, PlainName (ws.component a).name) ∧ (ws.namesWithin 0 3).head? = some "n" ∧
      (∀ s ∈ ws.within 0 5, (ws.component s).child? "n" = none) ∧
      ws.spelling (.component 3) = "n::m::h" := by decide +kernel
  clear_value ws
  have hs := hhistory.sound
  exact ⟨hleads, hspelling, (hhistory.spelling_leads_back_iff hl (hs.mem_walk_iff.mp hx)
    (targetNamed_eq_of_loaded hl hleads) hfile (by decide) hcontainers hplain hfirst).mpr hfree⟩

/-- A namespace with an empty one of the same name in it: what is declared in the outer one is found by
its own name, but its spelling leads into the inner one and nowhere. -/
theorem spelling_shadowed :
    let source := "namespace n\n namespace n\n function h\n function k\n  call h\n"
    let disk : Disk := ⟨[(["work"], .directory), (["a.light"], .file (.text source))], ⟨"/work"⟩⟩
    let ws := Call.play [.addFile none "a" ⟨"/a.light"⟩, .load 0] (Workspace.new {} disk [.light])
    History (fun _ _ => True) ws ∧
      (ws.Loaded ∧ ws.action? 5 = some (.call "h") ∧ 5 ∈ ws.walk 0 ∧ ws.fileOf? 3 = some 0 ∧
        (∀ a ∈ (ws.within 0 3).tail, (ws.kind a).isContainer = true) ∧
        (∀ id < ws.size, PlainName (ws.component id).name) ∧
        ws.spelling (.component 3) = "n::h") ∧
      Build.targetNamed 5 "h" ws = .ok (.component 3) ws ∧
      ∃ e, Build.targetNamed 5 (readBack (ws.spelling (.component 3))) ws = .error e ws := by
  intro source disk ws
  obtain ⟨hfacts, hleads, hnone⟩ :
      (ws.Loaded ∧ ws.action? 5 = some (.call "h") ∧ 5 ∈ ws.walk 0 ∧ ws.fileOf? 3 = some 0 ∧
        (∀ a ∈ (ws.within 0 3).tail, (ws.kind a).isContainer = true) ∧
        (∀ id < ws.size, PlainName (ws.component id).name) ∧ ws.spelling (.component 3) = "n::h") ∧
      ws.targetAt? 5 "h" = some (.component 3) ∧
      ws.targetAt? 5 (readBack (ws.spelling (.component 3))) = none := by decide +kernel
  exact ⟨.play (by decide +kernel), hfacts, targetNamed_eq_of_loaded hfacts.1 hleads,
    targetNamed_of_targetAt?_eq_none hfacts.1 hnone⟩

/-! ## From the file -/

namespace Workspace

/-- `c` is no file, and a row of children through containers leads to it from its file `f`. -/
structure Scoped (ws : Workspace) (f c : ComponentId) : Prop where
  file : ws.fileOf? c = some f
  noFile : ws.isFile c = false
  below : ws.Below f c
  containers : ∀ a ∈ (ws.within f c).tail, (ws.kind a).isContainer = true

variable {ws : Workspace}

variable {f c : ComponentId}

theorem Scoped.ne (h : ws.Scoped f c) : c ≠ f := by
  rintro rfl
  cases h.noFile.symm.trans (isFile_of_fileOf? h.file)

theorem Sound.pieces_qualifiedName (hs : ws.Sound) (h : ws.Scoped f c)
    (hplain : ∀ id < ws.size, PlainName (ws.component id).name) :
    pieces '.' (readBack (ws.qualifiedName c)) = ws.namesWithin f c ∧
      ∀ n ∈ ws.namesWithin f c, PlainName n := by
  have hnames : ∀ n ∈ ws.namesWithin f c, PlainName n := by
    intro n hn
    obtain ⟨a, ha, rfl⟩ := List.mem_map.mp hn
    have hle := hs.le_of_mem_enclosing ((List.takeWhile_prefix _).mem (List.mem_reverse.mp ha))
    exact hplain a (Nat.lt_of_le_of_lt hle (hs.lt_size_of_fileOf? h.file))
  have hne : ws.namesWithin f c ≠ [] := by
    intro hnil
    have hself := hs.childAt?_namesWithin h.below
    rw [hnil] at hself
    exact h.ne (Option.some.inj hself).symm
  have hname : ws.qualifiedName c = glue "::" (ws.namesWithin f c) :=
    hs.spelling_eq h.file h.ne h.containers
  rw [hname]
  exact ⟨pieces_readBack hne hnames, hnames⟩

end Workspace

/-- Segments lead down without loading anything if nothing that they pass is a file. -/
theorem Build.descend_of_noFile {ws : Workspace} (hs : ws.Sound) (load : ComponentId → Build Unit)
    {found c : ComponentId} (read : List String) {rest : List String}
    (h : ws.childAt? found rest = some c)
    (hfile : ∀ a ∈ ws.enclosing c, found ∈ ws.enclosing a → ws.isFile a = false) :
    descend load found read rest ws = .ok (.found (.component c)) ws := by
  induction rest generalizing found read with
  | nil =>
    cases h
    rfl
  | cons segment rest ih =>
    have habove := hs.mem_enclosing_of_below (hs.below_of_childAt? h)
    have hno := hfile found habove (hs.self_mem_enclosing found)
    rw [Workspace.childAt?] at h
    split at h
    · next child hchild =>
      rw [descend, bind_get]
      simp only [hno]
      show (component found >>= _) ws = _
      rw [bind_component, hchild]
      have hup : found ∈ ws.enclosing child :=
        hs.mem_enclosing_of_below (.child .refl (hs.child hchild).2.2.2)
      exact ih _ h fun a ha hchild => hfile a ha (hs.mem_enclosing_trans hup hchild)
    · cases h

/-- **Qualified names are faithful at file scope.** In every history whose names are plain: from the file
around it, the qualified name of a component in containers, read as a dotted name, leads to the component
and changes nothing, whatever it is that loads a file. So no two such components of a file have one
qualified name. -/
theorem History.qualifiedName_leads_back {A : Workspace → Call → Prop} {ws : Workspace} (h : History A ws)
    (hplain : ∀ id < ws.size, PlainName (ws.component id).name) {f c : ComponentId} (hc : ws.Scoped f c) :
    Build.componentNamed f (readBack (ws.qualifiedName c)) ws = .ok c ws ∧
    (∀ load, Build.componentNamedWith load f (readBack (ws.qualifiedName c)) ws = .ok c ws) ∧
    ∀ d, ws.Scoped f d → ws.qualifiedName d = ws.qualifiedName c → d = c := by
  have hs := h.sound
  obtain ⟨hpieces, hnames⟩ := hs.pieces_qualifiedName hc hplain
  have hat := hs.childAt?_namesWithin hc.below
  have hleads : ∀ load, Build.componentNamedWith load f (readBack (ws.qualifiedName c)) ws = .ok c ws := by
    intro load
    suffices hlookUp : lookUpWith load f (readBack (ws.qualifiedName c)) ws =
        .ok (.found (.component c)) ws by
      rw [componentNamedWith, targetWith, bind_assoc, bind_of_ok hlookUp]
      rfl
    rw [lookUpWith, hpieces, cFunctionOf?_of_plain hnames]
    cases hsegments : ws.namesWithin f c with
    | nil =>
      rw [hsegments] at hat
      exact absurd (Option.some.inj hat).symm hc.ne
    | cons first rest =>
      rw [hsegments, Workspace.childAt?] at hat
      split at hat
      · next top htop =>
        have hnearest : ws.nearest? f first = some top := by
          rw [Workspace.nearest?, hs.enclosing_eq, List.findSome?_cons, htop]
        show lookUpSegments load f (first :: rest) ws = _
        rw [lookUpSegments, bind_get, hnearest]
        refine descend_of_noFile hs load [first] hat fun a ha htop' => ?_
        -- what is passed is around the component, and inside the file
        rw [hs.enclosing_eq_append hc.below] at ha
        rcases List.mem_append.mp ha with ha | ha
        · exact Workspace.isFile_of_mem_within hc.file ha
        · have hle := (hs.le_of_mem_enclosing htop').trans (hs.le_of_mem_enclosing ha)
          exact absurd hle (Nat.not_le_of_lt (hs.of_mem_childIds (hs.child htop).2.2.2).2.2)
      · cases hat
  refine ⟨hleads _, hleads, fun d hd heq => ?_⟩
  have hsame : ws.namesWithin f d = ws.namesWithin f c := by
    rw [← (hs.pieces_qualifiedName hd hplain).1, heq, hpieces]
  exact hs.eq_of_namesWithin hd.below hc.below hsame

/-- Two functions of one name in two namespaces, one inside the other, before the header of the file next to
them is loaded: each is found again. -/
theorem History.qualifiedName_leads_back_nested :
    let source := "namespace n\n namespace m\n  function h\n function h\n"
    let disk : Disk := ⟨[(["a.light"], .file (.text source)), (["b.h"], .file (.text ""))], ⟨"/"⟩⟩
    let ws := Call.play [.registerProject "p" ⟨"/"⟩ ⟨"/o"⟩ .plain, .load 0, .load 1]
      (Workspace.new {} disk [.light, .cpp])
    History (fun _ _ => True) ws ∧ ws.qualifiedName 5 = "n::m::h" ∧
      Build.componentNamed 1 (readBack (ws.qualifiedName 5)) ws = .ok 5 ws ∧
      Build.componentNamed 1 (readBack (ws.qualifiedName 6)) ws = .ok 6 ws ∧
      ws.qualifiedName 6 ≠ ws.qualifiedName 5 := by
  intro source disk ws
  have hhistory : History (fun _ _ => True) ws := .play (by decide +kernel)
  obtain ⟨hplain, hname, hfive, hsix⟩ : (∀ id < ws.size, PlainName (ws.component id).name) ∧
      ws.qualifiedName 5 = "n::m::h" ∧
      (ws.fileOf? 5 = some 1 ∧ ws.isFile 5 = false ∧ ws.childAt? 1 ["n", "m", "h"] = some 5 ∧
        ∀ a ∈ (ws.within 1 5).tail, (ws.kind a).isContainer = true) ∧
      (ws.fileOf? 6 = some 1 ∧ ws.isFile 6 = false ∧ ws.childAt? 1 ["n", "h"] = some 6 ∧
        ∀ a ∈ (ws.within 1 6).tail, (ws.kind a).isContainer = true) := by decide +kernel
  clear_value ws
  have hbelow : ∀ {names c}, ws.childAt? 1 names = some c → ws.Below 1 c :=
    hhistory.sound.below_of_childAt?
  have hscoped : ws.Scoped 1 5 := ⟨hfive.1, hfive.2.1, hbelow hfive.2.2.1, hfive.2.2.2⟩
  have hscoped' : ws.Scoped 1 6 := ⟨hsix.1, hsix.2.1, hbelow hsix.2.2.1, hsix.2.2.2⟩
  obtain ⟨hback, -, hunique⟩ := hhistory.qualifiedName_leads_back hplain hscoped
  refine ⟨hhistory, hname, hback, (hhistory.qualifiedName_leads_back hplain hscoped').1, fun heq => ?_⟩
  cases hunique 6 hscoped' heq

end LightHeaders
