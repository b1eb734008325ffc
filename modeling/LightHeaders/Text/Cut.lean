set_option autoImplicit false

/-! # Cutting a text at a character

`splitAt` cuts at every occurrence of a character and keeps the empty pieces, so that `join` with
the same character gives the text back (`join_splitAt`); `pieces` and `glue` are the same two on
strings. `cutFirst?` and `cutLast?` cut once, at the first or the last occurrence; `before?` and
`after?` cut at the first occurrence of a pair of characters.
-/

namespace LightHeaders.Text

/-! ## Every occurrence -/

/-- The pieces of a text between the occurrences of `sep`, empty ones included. -/
def splitAt (sep : Char) : List Char → List (List Char)
  | [] => [[]]
  | c :: cs =>
    if c = sep then [] :: splitAt sep cs
    else
      match splitAt sep cs with
      | [] => [[c]]
      | piece :: pieces => (c :: piece) :: pieces

/-- The pieces one behind the other with `sep` between two neighbours. -/
def join (sep : List Char) : List (List Char) → List Char
  | [] => []
  | [piece] => piece
  | piece :: next :: pieces => piece ++ sep ++ join sep (next :: pieces)

theorem splitAt_ne_nil (sep : Char) (cs : List Char) : splitAt sep cs ≠ [] := by
  induction cs with
  | nil => simp [splitAt]
  | cons c cs ih =>
    simp only [splitAt]
    split
    · simp
    · split <;> simp

/-- Joining the pieces of a text gives the text back. -/
theorem join_splitAt (sep : Char) (cs : List Char) : join [sep] (splitAt sep cs) = cs := by
  induction cs with
  | nil => rfl
  | cons c cs ih =>
    simp only [splitAt]
    rcases hs : splitAt sep cs with _ | ⟨piece, _ | ⟨next, pieces⟩⟩
    · exact absurd hs (splitAt_ne_nil sep cs)
    · rw [hs] at ih
      split <;> simp_all [join]
    · rw [hs] at ih
      split <;> simp_all [join]

/-- The pieces of a string between the occurrences of `sep`. -/
def pieces (sep : Char) (s : String) : List String := (splitAt sep s.toList).map String.ofList

/-- The strings one behind the other with `sep` between two neighbours. -/
def glue (sep : String) (texts : List String) : String :=
  String.ofList (join sep.toList (texts.map String.toList))

/-! ## One occurrence -/

/-- What stands before and behind the first `sep`. -/
def cutFirst? (sep : Char) : List Char → Option (List Char × List Char)
  | [] => none
  | c :: cs =>
    if c = sep then some ([], cs) else (cutFirst? sep cs).map fun (front, back) => (c :: front, back)

/-- What stands before and behind the last `sep`. -/
def cutLast? (sep : Char) : List Char → Option (List Char × List Char)
  | [] => none
  | c :: cs =>
    match cutLast? sep cs with
    | some (front, back) => some (c :: front, back)
    | none => if c = sep then some ([], cs) else none

/-- What stands before the first occurrence of `a` directly followed by `b`. -/
def before? (a b : Char) : List Char → Option (List Char)
  | c :: d :: cs =>
    if c = a ∧ d = b then some [] else (before? a b (d :: cs)).map (c :: ·)
  | _ => none

/-- What stands behind the first occurrence of `a` directly followed by `b`. -/
def after? (a b : Char) : List Char → Option (List Char)
  | c :: d :: cs => if c = a ∧ d = b then some cs else after? a b (d :: cs)
  | _ => none

end LightHeaders.Text
