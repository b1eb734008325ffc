import LightHeaders.Proofs.LineNumbers

set_option autoImplicit false

/-! # Where declarations stand

A namespace, a function and a member are each declared on a line of their own, and a parameter in the head
of its function (`Workspace.Introduces`). Where declarations that nothing refers to are left out, that goes
for files and namespaces: a function or a member there needs to be referred to itself, a namespace needs
something inside it that is, and what is directly inside a function is never left out. So a component is
declared if it is referred to and so is each function on the way down to it, those apart that are directly
inside another one (`Workspace.Kept`, `Workspace.Kept.exists_line`).
-/

namespace LightHeaders

open Text

/-- Whether components of the kind are declared on a line of their own. -/
def Kind.isDeclaration : Kind → Bool
  | .space | .function _ => true
  | .member m => !m.isParam
  | _ => false

namespace Workspace

section

variable (ws : Workspace) (M : ComponentId → Prop)

/-- The text declares `c`. -/
inductive Introduces (c : ComponentId) : String → Prop
  | space (kind : ws.kind c = .space) : Introduces c ("namespace " ++ (ws.component c).name ++ " \x7b")
  | function {s : Signature} {head : String} (kind : ws.kind c = .function s)
      (spelled : ws.headText c s = some head) : Introduces c head
  | member {m : Member} {type rest : String} (kind : ws.kind c = .member m)
      (spelled : ws.typeText c (some m.type) = some type)
      (ends : rest = ";" ∨ ∃ value, rest = " = " ++ value ++ ";") :
      Introduces c (type ++ " " ++ (ws.component c).name ++ rest)
  /-- In the head of the function that it is a parameter of. -/
  | param {p : ComponentId} {s : Signature} {head : String} (kind : ws.kind p = .function s)
      (mem : c ∈ s.params) (spelled : ws.headText p s = some head) : Introduces c head

/-- The child `x` of `p` is not left out: `p` is a function, or `x` is among `M`. -/
def Keeps (p x : ComponentId) : Prop := (∃ s, ws.kind p = .function s) ∨ M x

/-- On the way from the file `g` down to a component, itself included, are only namespaces and functions
that are not left out. -/
inductive Way (g : ComponentId) : ComponentId → Prop
  | file : Way g g
  | space {p x : ComponentId} (outer : Way g p) (mem : x ∈ (ws.component p).childIds)
      (kind : ws.kind x = .space) : Way g x
  | function {p x : ComponentId} {s : Signature} (outer : Way g p)
      (mem : x ∈ (ws.component p).childIds) (kind : ws.kind x = .function s) (kept : ws.Keeps M p x) :
      Way g x

/-- Nothing is in the way of the declaration of a component in the file `g`, where what is among `M` is
referred to. -/
inductive Kept (g : ComponentId) : ComponentId → Prop
  | own {p x : ComponentId} (way : ws.Way M g p) (mem : x ∈ (ws.component p).childIds)
      (declares : (ws.kind x).isDeclaration = true) (kept : ws.Keeps M p x) : Kept g x
  | param {p x : ComponentId} {s : Signature} (way : ws.Way M g p) (kind : ws.kind p = .function s)
      (mem : x ∈ s.params) : Kept g x

end

variable {ws ws' : Workspace} {M N : ComponentId → Prop} {g p x : ComponentId}

/-! ## Alike workspaces -/

namespace Alike

variable (h : ws.Alike ws')

include h

theorem kind_of_isDeclaration (hx : (ws.kind x).isDeclaration = true) : ws'.kind x = ws.kind x := by
  rcases Kind.cases_of_still_eq (h.kind_eq x) with heq | ⟨o, -, hk, -⟩ | ⟨f, -, hk, -⟩
  · exact heq
  · rw [hk] at hx
    cases hx
  · rw [hk] at hx
    cases hx

theorem kind_function {s : Signature} (hx : ws.kind x = .function s) : ws'.kind x = .function s := by
  rw [h.kind_of_isDeclaration (by rw [hx]; rfl), hx]

theorem qualifiedName_eq (id : ComponentId) : ws'.qualifiedName id = ws.qualifiedName id := by
  have hcontainer : ∀ a, (ws'.kind a).isContainer = (ws.kind a).isContainer := fun a => by
    rcases Kind.cases_of_still_eq (h.kind_eq a) with heq | ⟨_, _, hk, hk', -⟩ | ⟨_, _, hk, hk'⟩
    · rw [heq]
    · rw [hk, hk']
      rfl
    · rw [hk, hk']
      rfl
  have hqualifier : ws'.isQualifier = ws.isQualifier := by
    funext a
    rw [isQualifier, hcontainer, h.isFile_eq, isQualifier]
  simp only [qualifiedName, h.enclosing_eq, hqualifier, h.name_eq]

theorem typeText_eq (scope : ComponentId) (type? : Option String) :
    ws'.typeText scope type? = ws.typeText scope type? := by
  cases type? with
  | none => rfl
  | some type => simp only [typeText, h.languageAt_eq, h.targetAt?_eq, h.qualifiedName_eq]

theorem headText_eq (id : ComponentId) (s : Signature) : ws'.headText id s = ws.headText id s := by
  have hparam : ws'.paramText id = ws.paramText id := by
    funext param
    simp only [paramText, h.memberType?_eq, h.typeText_eq, h.name_eq]
  have hspecifiers : Build.specifiers (ws'.component id) = Build.specifiers (ws.component id) :=
    h.of_component id Build.specifiers fun _ => rfl
  simp only [headText, h.typeText_eq, hparam, hspecifiers, h.name_eq]

theorem introduces {c : ComponentId} {text : String} (hc : ws.Introduces c text) :
    ws'.Introduces c text := by
  cases hc with
  | space kind =>
    rw [← h.name_eq]
    exact .space (by rw [h.kind_of_isDeclaration (by rw [kind]; rfl), kind])
  | function kind spelled => exact .function (h.kind_function kind) (by rwa [h.headText_eq])
  | @member m _ _ kind spelled ends =>
    have hkind : ws'.kind c = .member m := by
      rcases Kind.cases_of_still_eq (h.kind_eq c) with heq | ⟨_, _, hk, -⟩ | ⟨_, _, hk, -⟩
      · rw [heq, kind]
      · rw [kind] at hk
        cases hk
      · rw [kind] at hk
        cases hk
    rw [← h.name_eq]
    exact .member hkind (by rwa [h.typeText_eq]) ends
  | param kind mem spelled => exact .param (h.kind_function kind) mem (by rwa [h.headText_eq])

end Alike

theorem Keeps.alike (h : ws.Alike ws') (hMN : ∀ a, M a → N a) (hx : ws.Keeps M p x) :
    ws'.Keeps N p x := by
  rcases hx with ⟨s, hs⟩ | hx
  · exact .inl ⟨s, h.kind_function hs⟩
  · exact .inr (hMN x hx)

theorem Way.alike (h : ws.Alike ws') (hMN : ∀ a, M a → N a) (hp : ws.Way M g p) : ws'.Way N g p := by
  induction hp with
  | file => exact .file
  | @space _ x _ mem kind ih =>
    refine .space ih (by rwa [h.childIds_eq]) ?_
    rw [h.kind_of_isDeclaration (by rw [kind]; rfl), kind]
  | function _ mem kind kept ih =>
    exact .function ih (by rwa [h.childIds_eq]) (h.kind_function kind) (kept.alike h hMN)

/-- Where more is referred to, all stands that stood, in alike workspaces. -/
theorem Kept.alike (h : ws.Alike ws') (hMN : ∀ a, M a → N a) (hx : ws.Kept M g x) :
    ws'.Kept N g x := by
  cases hx with
  | own way mem declares kept =>
    refine .own (way.alike h hMN) (by rwa [h.childIds_eq]) ?_ (kept.alike h hMN)
    rwa [h.kind_of_isDeclaration declares]
  | param way kind mem => exact .param (way.alike h hMN) (h.kind_function kind) mem

/-! ## What is rendered -/

variable {prune : Bool}

theorem Visits.concat {a : ComponentId} (h : ws.Visits a prune p)
    (hx : x ∈ ws.writtenChildren p (ws.kind p = .space)) : ws.Visits a prune x := by
  induction h with
  | child hp => exact .deeper hp (.child hx)
  | deeper hp _ ih => exact .deeper hp (ih hx)

theorem not_isSetApart (hx : (ws.kind x).isDeclaration = true) : ws.isSetApart x = false := by
  rw [isSetApart]
  cases hk : ws.kind x with
  | member m =>
    rw [hk] at hx
    simpa [Kind.isDeclaration] using hx
  | file f =>
    rw [hk] at hx
    cases hx
  | _ => rfl

theorem mem_writtenChildren (hmem : x ∈ (ws.component p).childIds) (hx : ws.isSetApart x = false)
    (hlive : prune = true → ws.isLive x = true) :
    x ∈ ws.writtenChildren p prune := by
  refine List.mem_filter.mpr ⟨hmem, ?_⟩
  cases prune with
  | false => simp [hx]
  | true => simp [hx, hlive rfl]

/-- What is visited on the way down is rendered: where it is lifted to, or in the text of what it stands
in. -/
theorem rendered_of_visits (hs : ws.Sound) (hvisits : ws.Visits g true x)
    (hx : x ∈ ws.writtenChildren p prune) (hbody : ws.bodyOf p = ws.inlineChildren p prune)
    (hp : p = g ∨ ws.Rendered g p) : ws.Rendered g x := by
  cases hforward : (ws.component x).forward? with
  | some target => exact .inl ⟨x, hs.mem_lifted_iff.mpr ⟨hvisits, by rw [hforward]; rfl⟩, .refl⟩
  | none =>
    have hinline : x ∈ ws.bodyOf p := by
      rw [hbody]
      exact List.mem_filter.mpr ⟨hx, by rw [hforward]; rfl⟩
    rcases hp with rfl | ⟨y, hy, hyp⟩ | ⟨y, hy, hyp⟩
    · exact .inr ⟨x, hinline, .refl⟩
    · exact .inl ⟨y, hy, .step hyp hinline⟩
    · exact .inr ⟨y, hy, .step hyp hinline⟩

/-- **What is not left out is rendered.** A child on the way needs to be live where its parent is not a
function; then the namespaces around it are live as well. -/
theorem Way.rendered (hs : ws.Sound) (hM : ∀ a, M a → (ws.component a).referenced = true)
    (hg : ws.isFile g = true) (hp : ws.Way M g p) (hmem : x ∈ (ws.component p).childIds)
    (hx : ws.isSetApart x = false) (hlive : (∀ s, ws.kind p ≠ .function s) → ws.isLive x = true) :
    ws.Visits g true x ∧ ws.Rendered g x := by
  have hof : ∀ {a}, (ws.component a).referenced = true → ws.isLive a = true := fun {a} ha => by
    rw [hs.isLive_eq, ha]
    rfl
  induction hp generalizing x with
  | file =>
    obtain ⟨file, hfile⟩ : ∃ file, ws.kind g = .file file := by
      cases hk : ws.kind g with
      | file file => exact ⟨file, rfl⟩
      | _ =>
        rw [isFile, hk] at hg
        cases hg
    have hwritten : x ∈ ws.writtenChildren g true :=
      mem_writtenChildren hmem hx fun _ => hlive (by simp [hfile])
    exact ⟨.child hwritten, rendered_of_visits hs (.child hwritten) hwritten
      (by rw [bodyOf, hfile]) (.inl rfl)⟩
  | @space q p _ hpmem kind ih =>
    have hlive := hlive (by simp [kind])
    -- a namespace is live since something in it is
    have hplive : ws.isLive p = true := by
      rw [hs.isLive_eq, Bool.or_eq_true, Bool.and_eq_true]
      exact .inr ⟨by rw [← Workspace.kind, kind]; rfl, List.any_eq_true.mpr ⟨x, hmem, hlive⟩⟩
    obtain ⟨hvisits, hrendered⟩ := ih hpmem (by rw [isSetApart, kind]) fun _ => hplive
    have hwritten : x ∈ ws.writtenChildren p true := mem_writtenChildren hmem hx fun _ => hlive
    have hvisits' := hvisits.concat (by rw [kind]; exact hwritten)
    exact ⟨hvisits', rendered_of_visits hs hvisits' hwritten (by rw [bodyOf, kind]) (.inr hrendered)⟩
  | @function q p s _ hpmem kind kept ih =>
    obtain ⟨hvisits, hrendered⟩ := ih hpmem (by rw [isSetApart, kind]) fun hno => by
      rcases kept with ⟨t, ht⟩ | hm
      · exact absurd ht (hno t)
      · exact hof (hM p hm)
    -- in a function nothing is left out
    have hwritten : x ∈ ws.writtenChildren p false :=
      mem_writtenChildren hmem hx (by rintro ⟨⟩)
    have hvisits' := hvisits.concat (by rw [kind]; exact hwritten)
    exact ⟨hvisits', rendered_of_visits hs hvisits' hwritten (by rw [bodyOf, kind]) (.inr hrendered)⟩

/-! ## The line of a declaration -/

theorem introduces_of_ownText? (hx : (ws.kind x).isDeclaration = true) {text : String}
    (h : ws.ownText? x = some text) : ws.Introduces x text := by
  rw [ownText?] at h
  cases hk : ws.kind x with
  | space =>
    rw [hk] at h
    cases h
    exact .space hk
  | function s =>
    rw [hk] at h
    exact .function hk h
  | member m =>
    rw [hk] at h
    obtain ⟨type, htype, h⟩ := Option.bind_eq_some_iff.mp h
    dsimp only at h
    split at h
    · obtain ⟨value, -, h⟩ := Option.bind_eq_some_iff.mp h
      cases h
      have hends : " = " ++ value ++ ";" = ";" ∨ ∃ v, " = " ++ value ++ ";" = " = " ++ v ++ ";" :=
        .inr ⟨value, rfl⟩
      have hline := Introduces.member hk htype hends
      simpa only [String.append_assoc] using hline
    · cases h
      exact .member hk htype (.inl rfl)
  | _ =>
    rw [hk] at hx
    cases hx

/-- **What stands in a file has a line in its body.** -/
theorem Kept.exists_line (h : ws.Kept M g x) (hs : ws.Sound) (hmade : ws.Made)
    (hM : ∀ a, M a → (ws.component a).referenced = true) (hg : ws.isFile g = true) {body : List HeaderLine}
    (hbody : ws.bodyLines g = some body) :
    ∃ l ∈ body, ∃ level text, ws.Introduces x text ∧ l.text = String.ofList (blanks (4 * level)) ++ text := by
  have hline : ∀ {y}, y < ws.size → (ws.kind y).isDeclaration = true → ws.Rendered g y →
      ∃ l ∈ body, ∃ level text, ws.ownText? y = some text ∧
        l.text = String.ofList (blanks (4 * level)) ++ text := by
    intro y hlt hdeclares hrendered
    have hno : ws.isFile y = false := by
      rw [isFile]
      cases hk : ws.kind y with
      | file f =>
        rw [hk] at hdeclares
        cases hdeclares
      | _ => rfl
    obtain ⟨i, hi⟩ := Option.isSome_iff_exists.mp (hmade.source y hlt hno)
    obtain ⟨l, hl, hown⟩ := hs.exists_ownLine_of_rendered hg hbody hrendered hi
    obtain ⟨text, htext, rfl⟩ := Option.map_eq_some_iff.mp hown
    exact ⟨_, hl, _, text, htext, rfl⟩
  have hlive : ∀ {q y}, ws.Keeps M q y → (∀ s, ws.kind q ≠ .function s) → ws.isLive y = true := by
    rintro q y (⟨s, hq⟩ | hm) hno
    · exact absurd hq (hno s)
    · rw [hs.isLive_eq, hM y hm]
      rfl
  cases h with
  | own way mem declares kept =>
    obtain ⟨-, hrendered⟩ := way.rendered hs hM hg mem (not_isSetApart declares) (hlive kept)
    obtain ⟨l, hl, level, text, htext, heq⟩ := hline (hs.of_mem_childIds mem).1 declares hrendered
    exact ⟨l, hl, level, text, introduces_of_ownText? declares htext, heq⟩
  | @param p _ s way kind mem =>
    -- a parameter stands in the line of its function
    cases way with
    | file =>
      rw [isFile, kind] at hg
      cases hg
    | space _ _ hspace =>
      rw [kind] at hspace
      cases hspace
    | function outer hpmem _ kept =>
      have hdeclares : (ws.kind p).isDeclaration = true := by rw [kind]; rfl
      obtain ⟨-, hrendered⟩ := outer.rendered hs hM hg hpmem (not_isSetApart hdeclares) (hlive kept)
      obtain ⟨l, hl, level, text, htext, heq⟩ := hline (hs.of_mem_childIds hpmem).1 hdeclares hrendered
      rw [ownText?, kind] at htext
      exact ⟨l, hl, level, text, .param kind mem htext, heq⟩

end Workspace

end LightHeaders
