import LightHeaders.Literal
import LightHeaders.Proofs.LineGrammar

set_option autoImplicit false

/-! # The texts of literals

What the literals of each kind look like. A text between quotes has a backslash in front of what would
end it, and can be read back (`Literal.unescape_escapeChars`); so texts can be told from what they are
quoted as (`Literal.escape_injective`).
-/

namespace LightHeaders

open Text

/-- Whether a text is a literal. -/
def Reading.isValue : Reading → Bool
  | .value _ => true
  | _ => false

namespace Literal

/-! ## What a literal looks like -/

theorem isIntegral_of_reading {s : String} (h : reading s = .value .int) :
    isIntegral s.toList = true := by
  simp only [reading] at h
  grind

theorem isFractional_of_reading {s : String} (h : reading s = .value .float) :
    isFractional s.toList = true := by
  simp only [reading] at h
  grind

/-! ## Quoting -/

theorem isEnclosed_quoted (cs : List Char) : isEnclosed '"' ('"' :: (cs ++ ['"'])) = true := by
  simp [isEnclosed, List.getLast?_cons]

/-- The text that is quoted: a backslash takes the next character with it, and `n` and `t` behind one
stand for a line feed and a tab. -/
def unescape : List Char → List Char
  | [] => []
  | '\\' :: 'n' :: cs => '\n' :: unescape cs
  | '\\' :: 't' :: cs => '\t' :: unescape cs
  | '\\' :: c :: cs => c :: unescape cs
  | c :: cs => c :: unescape cs

theorem unescape_cons {c : Char} (h : c ≠ '\\') (cs : List Char) :
    unescape (c :: cs) = c :: unescape cs := by
  rw [unescape]
  · exact fun _ hc => absurd hc h
  · exact fun _ hc => absurd hc h
  · exact fun _ _ hc => absurd hc h

theorem unescape_escapeChar_append (c : Char) (cs : List Char) :
    unescape (escapeChar c ++ cs) = c :: unescape cs := by
  unfold escapeChar
  split
  · rfl
  · rfl
  · rfl
  · rfl
  · next hback _ _ _ => exact unescape_cons hback cs

/-- **What is quoted is read back.** -/
theorem unescape_escapeChars (cs : List Char) : unescape (cs.flatMap escapeChar) = cs := by
  induction cs with
  | nil => rfl
  | cons c cs ih => rw [List.flatMap_cons, unescape_escapeChar_append, ih]

theorem quoted_escapeChars (cs : List Char) : Line.Quoted '"' (cs.flatMap escapeChar) := by
  induction cs with
  | nil => exact .nil
  | cons c cs ih =>
    rw [List.flatMap_cons]
    unfold escapeChar
    split
    · exact ih.escape '\\'
    · exact ih.escape '"'
    · exact ih.escape 'n'
    · exact ih.escape 't'
    · next hback hquote _ _ => exact ih.char hquote hback

/-- **Different texts are quoted differently.** -/
theorem escape_injective : Function.Injective escape := by
  intro a b h
  have hlist := congrArg (fun text => unescape text.toList) h
  simp only [escape, String.toList_ofList, unescape_escapeChars] at hlist
  exact String.toList_inj.mp hlist

end Literal

end LightHeaders
