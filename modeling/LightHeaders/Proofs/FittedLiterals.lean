import LightHeaders.Proofs.LiteralValues
import LightHeaders.Proofs.Names

set_option autoImplicit false

/-! # Literals that are made to fit

A literal that does not fit a type as it is gets written anew as one of the kind that the type asks for.
That gives such a literal for some pairs of kinds (`LiteralKind.convertsTo`), and gives the text back for
the others. So a value that was made to fit does fit afterwards exactly if its kind converts
(`Build.fitChild_fits_iff`); otherwise it is left as it was, and nothing reports it.
-/

namespace LightHeaders

open Literal

/-! ## Renaming a child -/

variable {source : InstructionId} {pos : Nat} {old : String}

theorem Forest.childName?_setChildName {f : Forest} (h : f.childName? source pos = some old) (hold : old ≠ "")
    (text : String) :
    (f.setChildName source pos text).childName? source pos = some text := by
  obtain ⟨i, hi, rfl⟩ := Option.map_eq_some_iff.mp h
  obtain ⟨child, hchild, rfl⟩ := Option.map_eq_some_iff.mp hi
  -- an instruction that is not there has no name
  have hlt : child < f.size := by
    by_contra hout
    refine hold ?_
    rw [Forest.get, Array.getD_eq_getD_getElem?, Array.getElem?_eq_none (Nat.not_lt.mp hout)]
    rfl
  have hsame : (f.setName child text).childId? source pos = some child := by
    rw [Forest.childId?, Forest.setName, Forest.get_modify_eq]
    split <;> exact hchild
  rw [Forest.setChildName, hchild]
  simp only [Forest.childName?, Forest.child?, hsame, Option.map_some]
  rw [Forest.setName, Forest.get_modify_eq, if_pos ⟨rfl, hlt⟩]

theorem Workspace.alike_setChildName {ws : Workspace} {text : String}
    (h : ws.forest.childName? source pos = some old) (literal : (reading old).isValue = true)
    (again : (reading text).isValue = true) :
    ws.Alike { ws with forest := ws.forest.setChildName source pos text } := by
  obtain ⟨i, hi, rfl⟩ := Option.map_eq_some_iff.mp h
  obtain ⟨child, hchild, rfl⟩ := Option.map_eq_some_iff.mp hi
  rw [Forest.setChildName, hchild]
  exact Change.Quiet.alike (c := .rename child text) ⟨literal, again⟩

namespace Build

variable {ws ws' : Workspace} {scope : ComponentId} {source : InstructionId} {pos : Nat}
  {text request : String} {kind required : LiteralKind}

/-! ## Fitting a literal -/

/-- The kind of literal that a type asks for where a component stands. -/
def requiredKind? (ws : Workspace) (scope : ComponentId) (request : String) : Option LiteralKind :=
  ((ws.languageAt scope).builtin? request).bind Builtin.kind

theorem languageFor_eq (scope : ComponentId) (ws : Workspace) : languageFor scope ws =
    if ws.readers.contains (ws.languageAt scope) then .ok (ws.languageAt scope) ws
    else .error (.noReader (ws.languageAt scope)) ws := by
  rw [languageFor, bind_get]
  cases hreader : ws.readers.contains (ws.languageAt scope) with
  | true =>
    have hneed : needReader (ws.languageAt scope) ws = .ok () ws := by
      rw [needReader, bind_get, hreader]
      rfl
    rw [bind_of_ok hneed]
    rfl
  | false =>
    have hneed : needReader (ws.languageAt scope) ws = .error (.noReader (ws.languageAt scope)) ws := by
      rw [needReader, bind_get, hreader]
      rfl
    rw [bind_of_error hneed]
    rfl

/-- How a literal fits where its language can be read and the type asks for literals. -/
theorem fit_literal (hkind : reading text = .value kind)
    (hreader : ws.readers.contains (ws.languageAt scope) = true)
    (hrequired : requiredKind? ws scope request = some required) :
    fit scope text request ws =
      .ok (if kind = required then .asIs else .replace (recast text (some kind) (some required))) ws := by
  have hlanguage : languageFor scope ws = .ok (ws.languageAt scope) ws := by
    rw [languageFor_eq, hreader]
    rfl
  rw [requiredKind?] at hrequired
  rw [fit, bind_of_ok hlanguage, hkind]
  simp only [fitLiteral, hrequired]
  split <;> rfl

theorem exists_required_of_fit {r : Fit} (hkind : reading text = .value kind)
    (h : fit scope text request ws = .ok r ws') :
    ws.readers.contains (ws.languageAt scope) = true ∧
      ∃ required, requiredKind? ws scope request = some required := by
  cases hreader : ws.readers.contains (ws.languageAt scope) with
  | false =>
    rw [fit, bind_of_error (by rw [languageFor_eq, hreader]; rfl)] at h
    cases h
  | true =>
    have hlanguage : languageFor scope ws = .ok (ws.languageAt scope) ws := by
      rw [languageFor_eq, hreader]
      rfl
    refine ⟨rfl, ?_⟩
    cases hrequired : requiredKind? ws scope request with
    | some required => exact ⟨required, rfl⟩
    | none =>
      rw [requiredKind?] at hrequired
      rw [fit, bind_of_ok hlanguage, hkind] at h
      simp only [fitLiteral, hrequired] at h
      cases h

/-- A child that is a literal and is made to fit is written as the kind that is asked for, and nothing else
changes. -/
theorem exists_required_of_fitChild (htext : ws.forest.childName? source pos = some text)
    (hkind : reading text = .value kind) (hok : fitChild scope request source pos ws = .ok () ws') :
    ws.readers.contains (ws.languageAt scope) = true ∧
      ∃ required, requiredKind? ws scope request = some required ∧
        ws' = if kind = required then ws else { ws with
          forest := ws.forest.setChildName source pos (recast text (some kind) (some required)) } := by
  rw [fitChild, bind_get, htext] at hok
  obtain ⟨r, ws₁, hfit, hrest⟩ := exists_of_bind_eq_ok hok
  obtain ⟨hreader, required, hrequired⟩ := exists_required_of_fit hkind hfit
  refine ⟨hreader, required, hrequired, ?_⟩
  rw [fit_literal hkind hreader hrequired] at hfit
  cases hfit
  split
  · next hsame =>
    rw [if_pos hsame] at hrest
    cases hrest
    rfl
  · next hother =>
    rw [if_neg hother] at hrest
    cases hrest
    rfl

/-- **A literal that was made to fit does fit exactly if its kind converts.** It is then a literal of the
kind that the type asks for. Otherwise it is left as it was, and would have to be replaced by itself. -/
theorem fitChild_fits_iff (htext : ws.forest.childName? source pos = some text)
    (hkind : reading text = .value kind) (hok : fitChild scope request source pos ws = .ok () ws') :
    ∃ required fitted, requiredKind? ws scope request = some required ∧
      ws'.forest.childName? source pos = some fitted ∧
      (fit scope fitted request ws' = .ok .asIs ws' ↔ kind.convertsTo required = true) ∧
      (kind.convertsTo required = true → reading fitted = .value required) ∧
      (kind.convertsTo required = false →
        fitted = text ∧ fit scope fitted request ws' = .ok (.replace text) ws') := by
  obtain ⟨hreader, required, hrequired, hws⟩ := exists_required_of_fitChild htext hkind hok
  have hne : text ≠ "" := by
    rintro rfl
    rw [show reading "" = .invalid by decide +kernel] at hkind
    cases hkind
  have hfitted : ws'.forest.childName? source pos = some (recast text (some kind) (some required)) := by
    rw [hws]
    split
    · next hsame => rw [← hsame, recast_self, htext]
    · exact Forest.childName?_setChildName htext hne _
  -- a literal is still one, so the language and the type are the same
  have halike : ws.Alike ws' := by
    rw [hws]
    split
    · exact .refl ws
    · exact Workspace.alike_setChildName htext (by rw [hkind]; rfl) (isValue_recast hkind required)
  have hreader' : ws'.readers.contains (ws'.languageAt scope) = true := by
    rw [halike.languageAt_eq, ← hreader, hws]
    split <;> rfl
  have hrequired' : requiredKind? ws' scope request = some required := by
    rw [← hrequired, requiredKind?, halike.languageAt_eq, requiredKind?]
  refine ⟨required, _, hrequired, hfitted, ?_⟩
  cases hconverts : kind.convertsTo required with
  | true =>
    have hread := reading_recast hkind hconverts
    have hfits := fit_literal hread hreader' hrequired'
    rw [if_pos rfl] at hfits
    exact ⟨⟨fun _ => rfl, fun _ => hfits⟩, fun _ => hread, fun h => absurd h (by decide)⟩
  | false =>
    have hother : kind ≠ required := by
      rintro rfl
      simp [LiteralKind.convertsTo] at hconverts
    have hsame := recast_of_not_convertsTo hconverts text
    have hfits := fit_literal hkind hreader' hrequired'
    rw [if_neg hother, hsame] at hfits
    rw [hsame]
    refine ⟨⟨fun h => ?_, fun h => absurd h (by decide)⟩, fun h => absurd h (by decide), fun _ => ⟨rfl, hfits⟩⟩
    rw [hfits] at h
    cases h

/-- A negative float where a whole number is asked for. -/
theorem fitChild_fits_iff_half :
    let ws : Workspace := { forest := ⟨#[{ op := "declare", name := "x", children := [1] },
      { op := "value", name := "-.5f" }]⟩ }
    let ws' := (fitChild 0 "int" 0 0).after ws
    ws.forest.childName? 0 0 = some "-.5f" ∧ reading "-.5f" = .value .float ∧
      fitChild 0 "int" 0 0 ws = .ok () ws' ∧ ws'.forest.childName? 0 0 = some "-0" ∧
      fit 0 "-0" "int" ws' = .ok .asIs ws' := by
  intro ws ws'
  have htext : ws.forest.childName? 0 0 = some "-.5f" := by decide
  have hkind : reading "-.5f" = .value .float := by decide +kernel
  obtain ⟨⟨⟩, hok⟩ : ∃ a, fitChild 0 "int" 0 0 ws = .ok a ws' := ok_of_succeeds (by decide +kernel)
  obtain ⟨required, fitted, hrequired, hfitted, hfits, -, -⟩ := fitChild_fits_iff htext hkind hok
  have hint : requiredKind? ws 0 "int" = some .int := by decide +kernel
  have hname : ws'.forest.childName? 0 0 = some "-0" := by decide +kernel
  rw [hint] at hrequired
  rw [hname] at hfitted
  cases hrequired
  cases hfitted
  exact ⟨htext, hkind, hok, hname, hfits.mpr rfl⟩

/-- A text where a whole number is asked for is left there, and does not fit. -/
theorem fitChild_leaves_misfit :
    let ws : Workspace := { forest := ⟨#[{ op := "declare", name := "x", children := [1] },
      { op := "value", name := "\"a\"" }]⟩ }
    let ws' := (fitChild 0 "int" 0 0).after ws
    ws.forest.childName? 0 0 = some "\"a\"" ∧ reading "\"a\"" = .value .string ∧
      fitChild 0 "int" 0 0 ws = .ok () ws' ∧ ws'.forest.childName? 0 0 = some "\"a\"" ∧
      fit 0 "\"a\"" "int" ws' = .ok (.replace "\"a\"") ws' := by
  intro ws ws'
  obtain ⟨⟨⟩, hok⟩ : ∃ a, fitChild 0 "int" 0 0 ws = .ok a ws' := ok_of_succeeds (by decide +kernel)
  have hkind : reading "\"a\"" = .value .string := by decide +kernel
  refine ⟨by decide, hkind, hok, by decide +kernel, ?_⟩
  exact fit_literal hkind (by decide +kernel) (show requiredKind? ws' 0 "int" = some .int by decide +kernel)

end Build

end LightHeaders
