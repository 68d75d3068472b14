import TreeCodec.Schema.Basic
import TreeCodec.Schema.Error
import TreeCodec.Text.Quoted

/-!
Scalars: what a scalar value is apart from the width of its type.

Every scalar type takes the scalars that it can hold exactly. A float type also takes integers, and
rounds; a finite number that it would make infinite is out of its range.
-/
namespace TreeCodec

inductive Scalar where
  | bool (b : Bool)
  | int (n : Int)
  | uint (n : Nat)
  | float (x : Double)
  | char (c : Char)
  | str (s : String)
  deriving DecidableEq, Repr

namespace Scalar

def kind : Scalar → ScalarKind
  | bool _ => .bool
  | int _ => .int
  | uint _ => .uint
  | float _ => .float
  | char _ => .char
  | str _ => .str

def text : Scalar → String
  | bool b => toString b
  | int n => toString n
  | uint n => toString n
  | float x => x.render .message
  | char c => Text.quotedChar c
  | str s => Text.quoted s

end Scalar

namespace ScalarTy

def path (t : ScalarTy) : String := t.names.path

/-- The scalars that values of the type give and that trees are read as for it. -/
def kind : ScalarTy → ScalarKind
  | bool => .bool
  | char => .char
  | int t => if t.isSigned then .int else .uint
  | float _ => .float
  | string => .str

private def fitInt (t : IntTy) (n : Int) : Except SchemaError Value :=
  if t.holds n then .ok (.int t n) else .error (.outOfRange t.name (toString n))

-- The nearest number of the type.
def narrow (t : FloatTy) (x : Double) : Double :=
  match t with
  | .f32 => x.toSingle
  | .f64 => x

private def fitFloat (t : FloatTy) (x : Double) : Except SchemaError Value :=
  let y := narrow t x
  if x.isFinite && !y.isFinite then .error (.outOfRange t.name (x.render .message))
  else .ok (.float t y)

/-- The value of the type that a scalar stands for. -/
def ofScalar (t : ScalarTy) (s : Scalar) : Except SchemaError Value :=
  match t, s with
  | bool, .bool b => .ok (.bool b)
  | char, .char c => .ok (.char c)
  | char, .str text =>
    match text.toList with
    | [c] => .ok (.char c)
    | _ => .error (.outOfRange t.path (Text.quoted text))
  | int i, .int n => fitInt i n
  | int i, .uint n => fitInt i n
  | float f, .float x => fitFloat f x
  | float f, .int n => fitFloat f (.ofInt n)
  | float f, .uint n => fitFloat f (.ofInt n)
  | string, .str text => .ok (.text text)
  | string, .char c => .ok (.text (String.singleton c))
  | _, _ => .error (.scalarKind t.path s.kind)

/-- The scalar that a value of the type is. -/
def toScalar (t : ScalarTy) (v : Value) : Except SchemaError Scalar :=
  if v.ty = .scalar t then
    match v with
    | .bool b => .ok (.bool b)
    | .char c => .ok (.char c)
    | .int i n => .ok (if i.isSigned then .int n else .uint n.toNat)
    | .float _ x => .ok (.float x)
    | .text s => .ok (.str s)
    | _ => .error (.valueType t.path)
  else .error (.valueType t.path)

end ScalarTy
end TreeCodec
