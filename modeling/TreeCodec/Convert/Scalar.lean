import TreeCodec.Convert.Error
import TreeCodec.Text.Blank
import TreeCodec.Tree.Writer
import TreeCodec.Value.Scalar

/-!
Scalars in trees.

Reading is lenient in the usual ways: texts that spell a number are numbers, integral floats are
integers, and `0`, `1`, `"true"` and `"false"` are booleans. Nothing is rounded or cut off to fit an
integer. Writing never fails; a number without a decimal form is written as null.
-/
namespace TreeCodec

namespace Integer

def least64 : Int := -(Nat.pow 2 63 : Int)

def greatest64 : Int := (Nat.pow 2 63 : Int) - 1

def greatestUnsigned64 : Int := (Nat.pow 2 64 : Int) - 1

end Integer

namespace Tree

open Integer

def mismatch (k : ScalarKind) (t : Tree) : Fault := .typeMismatch (.scalar k) t.kind

def readInt (t : Tree) : Except Fault Scalar :=
  let invalid (reason : ScalarFault) : Except Fault Scalar := .error (.invalidScalar .int reason)
  match t with
  | number (.int n) => if n ≤ greatest64 then .ok (.int n) else invalid (.outOfRange (.int n))
  | number (.float x) =>
    match x.toInt? with
    | some n =>
      if least64 ≤ n ∧ n ≤ greatest64 then .ok (.int n) else invalid (.notInteger (.float x))
    | none => invalid (.notInteger (.float x))
  | text s =>
    match Numeral.integer least64 greatest64.toNat (Text.trim s.toList) with
    | .ok n => .ok (.int n)
    | .error e => invalid (.integerText s e)
  | t => .error (mismatch .int t)

def readUInt (t : Tree) : Except Fault Scalar :=
  let invalid (reason : ScalarFault) : Except Fault Scalar := .error (.invalidScalar .uint reason)
  match t with
  | number (.int n) => if 0 ≤ n then .ok (.uint n.toNat) else invalid (.negative (.int n))
  | number (.float x) =>
    match x.toInt? with
    | some n =>
      if 0 ≤ n ∧ n ≤ greatestUnsigned64 then .ok (.uint n.toNat)
      else invalid (.notUnsigned (.float x))
    | none => invalid (.notUnsigned (.float x))
  | text s =>
    match Numeral.integer 0 greatestUnsigned64.toNat (Text.trim s.toList) with
    | .ok n => .ok (.uint n.toNat)
    | .error e => invalid (.integerText s e)
  | t => .error (mismatch .uint t)

def readFloat : Tree → Except Fault Scalar
  | number n => .ok (.float n.toDouble)
  | text s =>
    match Numeral.double (Text.trim s.toList) with
    | .ok x => .ok (.float x)
    | .error e => .error (.invalidScalar .float (.decimalText s e))
  | t => .error (mismatch .float t)

private def isNumber (n : Number) (k : Int) : Bool :=
  match n with
  | .int m => m = k
  | .float x => x.toInt? = some k

def readBool : Tree → Except Fault Scalar
  | bool b => .ok (.bool b)
  | number n =>
    if isNumber n 0 then .ok (.bool false)
    else if isNumber n 1 then .ok (.bool true)
    else .error (.invalidScalar .bool (.notZeroOrOne n))
  | text s =>
    let word := String.ofList (Text.trim s.toList)
    if word = "true" ∨ word = "1" then .ok (.bool true)
    else if word = "false" ∨ word = "0" then .ok (.bool false)
    else .error (.invalidScalar .bool (.notBoolean s))
  | t => .error (mismatch .bool t)

def readChar : Tree → Except Fault Scalar
  | text s =>
    match s.toList with
    | [c] => .ok (.char c)
    | _ => .error (.invalidScalar .char (.notOneCharacter s))
  | t => .error (mismatch .char t)

def readText : Tree → Except Fault Scalar
  | text s => .ok (.str s)
  | number n => .ok (.str n.text)
  | bool b => .ok (.str (toString b))
  | t => .error (mismatch .str t)

/-- Reads a scalar of a kind from a tree. -/
def readScalar : ScalarKind → Tree → Except Fault Scalar
  | .bool => readBool
  | .int => readInt
  | .uint => readUInt
  | .float => readFloat
  | .char => readChar
  | .str => readText

/-- The key under which a map entry stands whose key is dumped as this tree. -/
def keyText : Tree → Except Fault String
  | text s => .ok s
  | number n => .ok n.text
  | bool b => .ok (toString b)
  | _ => .error .nonStringKey

end Tree

def Scalar.toTree : Scalar → Tree
  | bool b => .bool b
  | int n => .number (.int n)
  | uint n => .number (.int n)
  | float x => if x.isFinite then .number (.float x) else .null
  | char c => .text (String.singleton c)
  | str s => .text s

end TreeCodec
