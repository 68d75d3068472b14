import TreeCodec.Number.Double

/-!
The shortest decimal that reads back as a given double.

A decimal reads back as a double when it lies in the interval of reals that round to it. For one
digit, two digits and so on, the two decimals of that length next to the double are tested; the
first length with a hit wins, and of two hits the nearer one.
-/
namespace TreeCodec

/-- The number `digits * 10 ^ exponent`. -/
structure Decimal where
  digits : Nat
  exponent : Int
  deriving DecidableEq, Repr, Inhabited

/-- A ratio of naturals that stands for `10 ^ k`. -/
def tenPower (k : Int) : Nat × Nat :=
  if 0 ≤ k then (Nat.pow 10 k.toNat, 1) else (1, Nat.pow 10 (-k).toNat)

/-- The largest `k` with `10 ^ k ≤ num / den`, for a positive ratio. -/
def ratioLog10 (num den : Nat) : Int :=
  let guess := ratioLog2 num den * 30103 / 100000
  let reaches (k : Int) : Bool :=
    let (up, down) := tenPower k
    den * up ≤ num * down
  if reaches (guess + 1) then guess + 1 else if reaches guess then guess else guess - 1

namespace Decimal

/-- Drops the zeros at the end of the digits. -/
def trimmed (fuel : Nat) (d : Decimal) : Decimal :=
  match fuel with
  | 0 => d
  | fuel + 1 => if d.digits % 10 = 0 then trimmed fuel ⟨d.digits / 10, d.exponent + 1⟩ else d

end Decimal

namespace Double

/-- The decimal nearest to `± m * 2 ^ q` among those with `n` digits, provided it reads back as that
number. -/
def roundTrip? (m : Nat) (q : Int) (n : Nat) : Option Decimal :=
  -- In quarters of a unit: half a unit up, and down half a unit or, at a power of two, a quarter.
  let (value, den) := scaled (4 * m) (q - 2)
  let (step, _) := scaled 1 (q - 2)
  let below := if m = Nat.pow 2 52 ∧ q ≠ -1074 then step else 2 * step
  let above := 2 * step
  let exponent := ratioLog10 value den + 1 - n
  let (up, down) := tenPower exponent
  let digits := value * down / (den * up)
  -- The gap to a candidate and its two bounds, all over the denominator `den * down`.
  let hits (d : Nat) : Bool :=
    let at_ := d * den * up
    let v := value * down
    if at_ ≤ v then (if m % 2 = 0 then v - at_ ≤ below * down else v - at_ < below * down)
    else if m % 2 = 0 then at_ - v ≤ above * down else at_ - v < above * down
  let lower := digits * den * up
  let upper := (digits + 1) * den * up
  let v := value * down
  match hits digits, hits (digits + 1) with
  | false, false => none
  | true, false => some ⟨digits, exponent⟩
  | false, true => some ⟨digits + 1, exponent⟩
  | true, true =>
    if v - lower < upper - v ∨ (v - lower = upper - v ∧ digits % 2 = 0) then some ⟨digits, exponent⟩
    else some ⟨digits + 1, exponent⟩

/-- The shortest decimal that reads back as `± m * 2 ^ q`, for a positive `m`. Seventeen digits
always suffice. -/
def shortest (m : Nat) (q : Int) : Decimal :=
  let d := ((List.range 17).findSome? fun n => roundTrip? m q (n + 1)).getD ⟨m, 0⟩
  d.trimmed 20

end Double
end TreeCodec
