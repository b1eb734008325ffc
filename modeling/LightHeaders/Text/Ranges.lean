set_option autoImplicit false

/-! # Character classes as ranges

A Unicode property is a list of code point ranges `(first, last)` in increasing order, without
overlap. `Ranges.holds` reads such a list and stops at the first range past the code point. A long
table is written as the lengths of its runs (`Ranges.ofRuns`): how many code points are outside,
then how many are inside, and so on by turns.
-/

namespace LightHeaders.Text

/-- Code point ranges, each with both ends included, in increasing order. -/
abbrev Ranges := List (Nat × Nat)

namespace Ranges

/-- The ranges whose runs, from `start` on, have the given lengths: one outside, one inside, and so
on. -/
def ofRuns (start : Nat) : List Nat → Ranges
  | outside :: inside :: rest =>
    (start + outside, start + outside + inside - 1) :: ofRuns (start + outside + inside) rest
  | _ => []

/-- Whether `n` lies in one of the ranges. -/
def holds : Ranges → Nat → Bool
  | [], _ => false
  | (first, last) :: rest, n =>
    if n < first then false else if n ≤ last then true else holds rest n

end Ranges

end LightHeaders.Text
