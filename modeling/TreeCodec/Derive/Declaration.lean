import TreeCodec.Derive.Item
import TreeCodec.Derive.Setting

/-!
Which items a schema can be derived for.

`Item.declaration` accepts records with named fields and enums whose variants wrap one value each.
It checks the settings of the type first, then its parameters, then its body from the first part to
the last, and reports the first fault.
-/
namespace TreeCodec.Derive

/-- A field with its settings. -/
structure Member where
  name : String
  type : List Token
  settings : FieldSettings
  -- The type parameter that is the field's type.
  parameter : Option Nat

namespace Member

/-- The key under which the field is written. -/
def key (m : Member) : String :=
  match m.settings.rename with
  | some text => text.value
  | none => Token.plainName m.name

end Member

structure Alternative where
  name : String
  type : List Token

inductive Shape where
  | record (members : List Member)
  | union (alternatives : List Alternative)

/-- An item that a schema can be derived for. -/
structure Declaration where
  name : String
  settings : TypeSettings
  parameters : List TypeParameter
  -- Whether a comma follows the last parameter.
  closed : Bool
  predicates : List (List Token)
  shape : Shape

/-- The place of the type parameter that a type consists of. The word `_` names none. -/
def parameterIndex? (parameters : List TypeParameter) : List Token → Option Nat
  | [.word name] => if name = "_" then none else parameters.findIdx? (·.name = name)
  | _ => none

def typeParameters : List Parameter → Except DeriveError (List TypeParameter)
  | [] => .ok []
  | .type p :: rest => (typeParameters rest).map (p :: ·)
  | .lifetime :: _ => .error .lifetimeParameter
  | .constant :: _ => .error .constantParameter

def Field.member (parameters : List TypeParameter) (f : Field) : Except DeriveError Member := do
  let settings ← FieldSettings.ofAttributes f.attributes
  return ⟨f.name, f.type, settings, parameterIndex? parameters f.type⟩

def Variant.alternative (v : Variant) : Except DeriveError Alternative :=
  if v.attributes.any Attribute.isSchema then .error .variantSetting
  else
    match v.payload with
    | .unnamed [t] => .ok ⟨v.name, t⟩
    | _ => .error .variantPayload

def Body.shape (settings : TypeSettings) (parameters : List TypeParameter) :
    Body → Except DeriveError Shape
  | .record fields => do return .record (← fields.mapM (Field.member parameters))
  | .unnamed => .error .unnamedFields
  | .unit => .error .unnamedFields
  | .enumeration variants => do
    if settings.positional then throw .positionalUnion
    if variants.isEmpty then throw .noVariants
    return .union (← variants.mapM Variant.alternative)
  | .overlay => .error .overlay

namespace Item

def declaration (item : Item) : Except DeriveError Declaration := do
  let settings ← TypeSettings.ofAttributes item.attributes
  let parameters ← typeParameters item.parameters.list
  let shape ← item.body.shape settings parameters
  return ⟨item.name, settings, parameters, item.parameters.closed, item.predicates, shape⟩

end Item

namespace Declaration

def isGeneric (d : Declaration) : Bool := !d.parameters.isEmpty

/-- The identifier of the type, which its path may replace. -/
def ident (d : Declaration) : String :=
  match d.settings.typePath with
  | some path => path.names.getLast?.getD d.name
  | none => d.name

end Declaration

end TreeCodec.Derive
