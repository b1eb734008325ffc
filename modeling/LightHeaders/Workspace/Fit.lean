import LightHeaders.Workspace.Contents

set_option autoImplicit false

/-! # Types of values

A type name is a built-in type of the language it is read in, or leads to a component. A value
fits a type as follows. A literal fits a built-in type that is written with literals: as it is if
the kinds agree, and written anew otherwise (`Fit.replace`). A name fits if what it leads to declares
the very same type.

The type names on both sides are read in the language of the file where the value stands.
-/

namespace LightHeaders

/-- What a type name denotes. -/
inductive TypeMeaning where
  | builtin (name : String)
  | component (id : ComponentId)
deriving DecidableEq, Repr

/-- How a value fits a type. -/
inductive Fit where
  | asIs
  /-- With the text to put in its place. -/
  | replace (text : String)
deriving DecidableEq, Repr

namespace Build

/-- The language of the file around a component, which has to have a reader. -/
def languageFor (scope : ComponentId) : Build Language := do
  let language := (← get).languageAt scope
  needReader language
  return language

/-- What a type name denotes in a language, as seen from a component. -/
def meaning (language : Language) (scope : ComponentId) (name : String) :
    Build TypeMeaning := do
  match language.builtin? name with
  | some b => return .builtin b.name
  | none => return .component (← componentNamed scope name)

/-- What a type name denotes, as seen from a component. -/
def typeNamed (scope : ComponentId) (name : String) : Build TypeMeaning := do
  meaning (← languageFor scope) scope name

/-- The type that the instruction of a component declares. -/
def declaredType? (id : ComponentId) : Build (Option String) := do
  match (← component id).instruction? with
  | some source => return (← instruction source).type?
  | none => return none

/-- How a name fits a type. -/
def fitName (language : Language) (scope : ComponentId) (name request : String) : Build Fit := do
  let target ← componentNamed scope name
  match ← declaredType? target with
  | none => throw (.misfit name request "")
  | some declared =>
    let found ← meaning language target declared
    let expected ← meaning language scope request
    if found = expected then return .asIs else throw (.misfit name request declared)

/-- How a literal fits a type. -/
def fitLiteral (language : Language) (text : String) (kind : LiteralKind) (request : String) :
    Build Fit :=
  match (language.builtin? request).bind Builtin.kind with
  | none => throw (.misfit text request kind.name)
  | some required =>
    if kind = required then return .asIs
    else return .replace (Literal.recast text (some kind) (some required))

/-- How a value that stands at a component fits a type. -/
def fit (scope : ComponentId) (subject request : String) : Build Fit := do
  let language ← languageFor scope
  match Literal.reading subject with
  | .invalid => throw (.untyped subject)
  | .name => fitName language scope subject request
  | .value kind => fitLiteral language subject kind request

/-- Checks the child of an instruction at a position against a type, and writes it anew if need
be. There need not be a child. -/
def fitChild (scope : ComponentId) (request : String) (source : InstructionId) (pos : Nat) :
    Build Unit := do
  match (← get).forest.childName? source pos with
  | none => pure ()
  | some subject =>
    match ← fit scope subject request with
    | .asIs => pure ()
    | .replace text => updateForest fun f => f.setChildName source pos text

end Build

end LightHeaders
