import LightHeaders.Literal
import LightHeaders.Path

set_option autoImplicit false

/-! # Languages

A source is written in **Light**, from which a header is made, or is a **C++** header, which is
used as it is. The extension of a path selects the language. Each language has its built-in types:
the kind of literal that a value of the type is written with, and how the type is spelled in
C++.
-/

namespace LightHeaders

/-- The language of a source. -/
inductive Language where
  | light
  | cpp
deriving DecidableEq, Repr

/-- A built-in type of a language. -/
structure Builtin where
  name : String
  /-- The kind of literal that values of the type are written with, if any. -/
  kind : Option LiteralKind
  /-- How the type is spelled in C++. -/
  cpp : String
deriving DecidableEq, Repr

namespace Language

/-- The name of a language in messages. -/
def name : Language → String
  | .light => "Light"
  | .cpp => "C++"

/-- The extension of Light sources. -/
def lightSuffix : String := "light"

/-- The language that an extension selects. -/
def ofExtension? : String → Option Language
  | "light" => some .light
  | "h" => some .cpp
  | "hpp" => some .cpp
  | _ => none

/-- The language that the extension of a path selects. -/
def ofPath? (p : Path) : Option Language := p.extension?.bind ofExtension?

/-- Whether the path is that of a source. -/
def isSource (p : Path) : Bool := (ofPath? p).isSome

/-- The built-in types of Light. -/
def lightBuiltin? (name : String) : Option Builtin :=
  match name with
  | "int" => some ⟨name, some .int, "int"⟩
  | "float" => some ⟨name, some .float, "float"⟩
  | "double" => some ⟨name, some .float, "double"⟩
  | "string" => some ⟨name, some .string, "std::string"⟩
  | "bool" => some ⟨name, some .bool, "bool"⟩
  | "char" => some ⟨name, some .char, "char"⟩
  | "void" => some ⟨name, none, "void"⟩
  | _ => none

/-- The names of the built-in types of C++, by the kind of their literals. -/
def cppNames : List (Option LiteralKind × List String) :=
  [(some .int, ["int", "long", "short", "unsigned", "unsigned int", "long long", "size_t"]),
    (some .float, ["float", "double"]),
    (some .char, ["char"]),
    (some .bool, ["bool"]),
    (some .string, ["const char*", "char*", "std::string"]),
    (none, ["void"])]

/-- The built-in types of C++, each spelled as it is. -/
def cppBuiltin? (name : String) : Option Builtin :=
  (cppNames.find? fun (_, names) => names.contains name).map fun (kind, _) => ⟨name, kind, name⟩

/-- The built-in type of a language with the given name. -/
def builtin? : Language → String → Option Builtin
  | .light => lightBuiltin?
  | .cpp => cppBuiltin?

end Language

end LightHeaders
