set_option autoImplicit false

/-! # Buffers

A buffer collects text in fragments, none of them empty.
-/

namespace LightHeaders

/-- Text in fragments. -/
structure Buffer where
  fragments : Array String := #[]
deriving DecidableEq, Repr, Inhabited

namespace Buffer

/-- Adds a fragment at the end; the empty text adds nothing. -/
def push (b : Buffer) (fragment : String) : Buffer :=
  if fragment = "" then b else { b with fragments := b.fragments.push fragment }

/-- The text of all fragments. -/
def text (b : Buffer) : String := String.join b.fragments.toList

@[simp] theorem text_push (b : Buffer) (fragment : String) :
    (b.push fragment).text = b.text ++ fragment := by
  unfold push text
  split
  · subst fragment; simp
  · simp [String.join]

/-- The length of the text in bytes. -/
def byteSize (b : Buffer) : Nat := b.fragments.foldl (fun n fragment => n + fragment.utf8ByteSize) 0

/-- Whether there is no text. -/
def isEmpty (b : Buffer) : Bool := b.byteSize = 0

end Buffer

end LightHeaders
