set_option autoImplicit false

/-! # Reading bytes as text

`decode?` reads bytes as UTF-8 text and fails on any that are not. `decodeShown` reads what it
can and puts U+FFFD for each longest run of bytes that starts a character and does not finish it,
and for each byte that can start none.
-/

namespace LightHeaders.Text.Utf8

/-- The text that the bytes encode, if they are valid UTF-8. -/
def decode? (bytes : ByteArray) : Option String := String.fromUTF8? bytes

/-- How many bytes follow the first byte of a character, and the range of the byte next to it.
The ranges leave out overlong forms, surrogates and code points past U+10FFFF. -/
def expected? (first : UInt8) : Option (Nat × UInt8 × UInt8) :=
  if first < 0x80 then some (0, 0x80, 0xBF)
  else if first < 0xC2 then none
  else if first < 0xE0 then some (1, 0x80, 0xBF)
  else if first = 0xE0 then some (2, 0xA0, 0xBF)
  else if first = 0xED then some (2, 0x80, 0x9F)
  else if first < 0xF0 then some (2, 0x80, 0xBF)
  else if first = 0xF0 then some (3, 0x90, 0xBF)
  else if first < 0xF4 then some (3, 0x80, 0xBF)
  else if first = 0xF4 then some (3, 0x80, 0x8F)
  else none

/-- The bits that the first byte of a character with `following` more bytes carries. -/
def leadBits (following : Nat) (first : UInt8) : Nat :=
  match following with
  | 0 => first.toNat
  | 1 => first.toNat % 0x20
  | 2 => first.toNat % 0x10
  | _ => first.toNat % 0x08

/-- Reads bytes one at a time. `open?` is the character being read: its bits so far, how many
bytes it still needs and the range of the next one. A byte outside that range closes the character
as U+FFFD and is read again as a first byte. -/
def shownFrom (open? : Option (Nat × Nat × UInt8 × UInt8)) : List UInt8 → List Char
  | [] => if open?.isSome then ['\uFFFD'] else []
  | b :: bs =>
    let start : List Char × Option (Nat × Nat × UInt8 × UInt8) :=
      match expected? b with
      | none => (['\uFFFD'], none)
      | some (0, _, _) => ([Char.ofNat b.toNat], none)
      | some (n, lo, hi) => ([], some (leadBits n b, n, lo, hi))
    let read : List Char × Option (Nat × Nat × UInt8 × UInt8) :=
      match open? with
      | none => start
      | some (bits, needed, lo, hi) =>
        if lo ≤ b ∧ b ≤ hi then
          let bits := bits * 0x40 + b.toNat % 0x40
          if needed = 1 then ([Char.ofNat bits], none)
          else ([], some (bits, needed - 1, 0x80, 0xBF))
        else ('\uFFFD' :: start.1, start.2)
    read.1 ++ shownFrom read.2 bs

/-- The text to show for bytes that need not be valid UTF-8. -/
def decodeShown (bytes : ByteArray) : String := String.ofList (shownFrom none bytes.toList)

end LightHeaders.Text.Utf8
