import TreeCodec.Number.Rounding

/-!
Double-precision numbers as data.

A double is its 64 bits. Every operation here decodes them to an exact `± m * 2 ^ q`, computes with
naturals and packs the result again, so each one can be evaluated and reasoned about.
-/
namespace TreeCodec

structure Double where
  bits : UInt64
  deriving DecidableEq, Repr, Inhabited

/-- What the bits of a double denote; a finite one is `± m * 2 ^ q`. -/
inductive Decoded where
  | nan
  | infinite (negative : Bool)
  | finite (negative : Bool) (m : Nat) (q : Int)
  deriving DecidableEq, Repr

namespace Double

def negative (x : Double) : Bool := Nat.pow 2 63 ≤ x.bits.toNat

def exponent (x : Double) : Nat := x.bits.toNat / Nat.pow 2 52 % Nat.pow 2 11

def fraction (x : Double) : Nat := x.bits.toNat % Nat.pow 2 52

def decode (x : Double) : Decoded :=
  if x.exponent = Nat.pow 2 11 - 1 then
    if x.fraction = 0 then .infinite x.negative else .nan
  else if x.exponent = 0 then .finite x.negative x.fraction (-1074)
  else .finite x.negative (Nat.pow 2 52 + x.fraction) ((x.exponent : Int) - 1075)

-- Packs a rank of the grid under a sign, ranks past the ceiling as infinity.
def pack (negative : Bool) (rank : Nat) : Double :=
  ⟨UInt64.ofNat ((if negative then Nat.pow 2 63 else 0) + min rank Grid.double.ceiling)⟩

def zero (negative : Bool) : Double := pack negative 0

def infinity (negative : Bool) : Double := pack negative Grid.double.ceiling

def nan : Double := ⟨0x7ff8000000000000⟩

/-- The double nearest to `± num / den`. -/
def ofRatio (negative : Bool) (num den : Nat) : Double :=
  if num = 0 then zero negative
  else
    let (m, e) := Grid.double.round num den
    pack negative (Grid.double.rank m e)

def ofScaled (negative : Bool) (m : Nat) (e : Int) : Double :=
  let (num, den) := scaled m e
  ofRatio negative num den

def ofInt (n : Int) : Double := ofRatio (n < 0) n.natAbs 1

def isFinite (x : Double) : Bool := x.exponent ≠ Nat.pow 2 11 - 1

def isNaN (x : Double) : Bool := x.decode = .nan

/-- Rounds to single precision. The result is again a double, since a double holds every single. -/
def toSingle (x : Double) : Double :=
  match x.decode with
  | .finite s m q =>
    if m = 0 then x
    else
      let (num, den) := scaled m q
      let (m', e') := Grid.single.round num den
      if Grid.single.overflows m' e' then infinity s else ofScaled s m' e'
  | _ => x

/-- The integer that a double is, if it is one. -/
def toInt? (x : Double) : Option Int :=
  match x.decode with
  | .finite s m q =>
    let (num, den) := scaled m q
    if num % den = 0 then some (if s then -(num / den : Nat) else (num / den : Nat)) else none
  | _ => none

/-- The bits in hexadecimal. -/
def hex (x : Double) : String :=
  let digits := Nat.toDigits 16 x.bits.toNat
  String.ofList (List.replicate (16 - digits.length) '0' ++ digits)

private def hexDigit (c : Char) : Nat :=
  if c.isDigit then c.toNat - '0'.toNat else c.toNat - 'a'.toNat + 10

/-- The double of some bits in hexadecimal. -/
def ofHex (s : String) : Double :=
  ⟨UInt64.ofNat (s.toList.foldl (fun n c => n * 16 + hexDigit c) 0)⟩

/-- Equality of finite doubles as numbers: the two zeros are one number. -/
def sameNumber (x y : Double) : Bool :=
  x = y || (x.toInt? = some 0 && y.toInt? = some 0)

end Double
end TreeCodec
