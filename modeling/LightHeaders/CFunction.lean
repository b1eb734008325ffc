import LightHeaders.Text.Cut

set_option autoImplicit false

/-! # Functions of native libraries

The name `__c_<library>_<function>` stands for a function of a C library and needs no declaration.
The library ends at the first underscore behind it; neither part is empty.
-/

namespace LightHeaders

open Text

/-- A function of a native library. -/
structure CFunction where
  /-- The name of the library's header. -/
  library : String
  /-- The name of the function. -/
  name : String
deriving DecidableEq, Repr

/-- What every name of a native function starts with. -/
def cMark : List Char := "__c_".toList

/-- The native function that a name stands for. -/
def CFunction.parse? (name : String) : Option CFunction := do
  let rest ← cMark.isPrefixOf? name.toList
  let (library, function) ← cutFirst? '_' rest
  if library.isEmpty || function.isEmpty then none
  else some ⟨String.ofList library, String.ofList function⟩

end LightHeaders
