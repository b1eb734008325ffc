import LightHeaders.Text.Ranges

set_option autoImplicit false

/-! # Blanks and words

A **blank** is a character with the Unicode property White_Space. Everything that reads a line
character by character is built from the two halves of a text at its first blank: `word`, the run
of characters before it, and `afterWord`, the blank and all behind it. `trim` removes the blanks
at both ends, `words` lists the maximal runs without a blank.
-/

namespace LightHeaders.Text

/-- The code points with the Unicode property White_Space. -/
def blankRanges : Ranges :=
  [(0x9, 0xD), (0x20, 0x20), (0x85, 0x85), (0xA0, 0xA0), (0x1680, 0x1680), (0x2000, 0x200A),
    (0x2028, 0x2029), (0x202F, 0x202F), (0x205F, 0x205F), (0x3000, 0x3000)]

/-- Whether `c` is a blank. -/
def isBlank (c : Char) : Bool := blankRanges.holds c.toNat

/-- A run of spaces. -/
def blanks (count : Nat) : List Char := List.replicate count ' '

/-- The text without the blanks at its start. -/
def trimStart (cs : List Char) : List Char := cs.dropWhile isBlank

/-- The text without the blanks at its end. -/
def trimEnd (cs : List Char) : List Char := (cs.reverse.dropWhile isBlank).reverse

/-- The text without the blanks at its two ends. -/
def trim (cs : List Char) : List Char := trimEnd (trimStart cs)

/-- The run of characters before the first blank. -/
def word (cs : List Char) : List Char := cs.takeWhile (!isBlank ·)

/-- What stands behind the first word, its blank included. -/
def afterWord (cs : List Char) : List Char := cs.dropWhile (!isBlank ·)

/-- The maximal runs without a blank, in order; `current` is the run being read, reversed. -/
def wordsFrom (current : List Char) : List Char → List (List Char)
  | [] => if current.isEmpty then [] else [current.reverse]
  | c :: cs =>
    if isBlank c then
      if current.isEmpty then wordsFrom [] cs else current.reverse :: wordsFrom [] cs
    else wordsFrom (c :: current) cs

/-- The maximal runs of characters without a blank, in order. -/
def words (cs : List Char) : List (List Char) := wordsFrom [] cs

end LightHeaders.Text
