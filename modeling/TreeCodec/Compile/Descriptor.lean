import TreeCodec.Procedure.Syntax
import TreeCodec.Text.Identifier

/-!
Descriptors: what a compiler is asked to convert.

A descriptor names a type, the place that the value is read from, and a label for the procedures
that are made for it. Descriptors of one type are of one target, whatever their labels are.
-/
namespace TreeCodec

structure Descriptor where
  ty : Ty
  value : Operand
  label : String
  -- The position of the type parameter that the value is declared with.
  position : Option Nat
  -- Type arguments other than those of the type itself.
  given : Option (List Descriptor)
  deriving Inhabited

namespace Descriptor

def new (S : Schema) (t : Ty) (value : Operand) : Descriptor where
  ty := t
  value := value
  label := Text.identifier (S.name t)
  position := none
  given := none

variable (d : Descriptor)

def labelled (name : String) : Descriptor := { d with label := Text.identifier name }

def positioned (index : Nat) : Descriptor := { d with position := some index }

def withArguments (args : List Descriptor) : Descriptor := { d with given := some args }

/-- The same target, read from another place. -/
def readFrom (value : Operand) : Descriptor := { d with value }

@[simp] theorem ty_labelled (name : String) : (d.labelled name).ty = d.ty := rfl

@[simp] theorem ty_positioned (index : Nat) : (d.positioned index).ty = d.ty := rfl

@[simp] theorem ty_withArguments (args : List Descriptor) : (d.withArguments args).ty = d.ty := rfl

@[simp] theorem ty_readFrom (value : Operand) : (d.readFrom value).ty = d.ty := rfl

/-- The descriptors of the type arguments, in order. -/
def arguments (S : Schema) : List Descriptor :=
  match d.given with
  | some args => args
  | none => (S.generics d.ty).mapIdx fun i (_, t) => (new S t (.var "v1")).positioned i

def argumentTypes (S : Schema) : List Ty := (d.arguments S).map Descriptor.ty

end Descriptor
end TreeCodec
