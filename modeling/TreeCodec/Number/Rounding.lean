/-!
Binary floating-point grids and rounding to the nearest point of one.

A grid holds the numbers `m * 2 ^ e` with `m` below `2 ^ precision` and `e` not below the lowest
exponent. `Grid.round` takes a positive ratio to the nearest such number, a half going to the even
neighbour.
-/
namespace TreeCodec

-- A half goes to the even neighbour.
def roundHalfEven (num den : Nat) : Nat :=
  let q := num / den
  let r := num % den
  if 2 * r < den then q
  else if den < 2 * r then q + 1
  else if q % 2 = 0 then q else q + 1

theorem roundHalfEven_one (num : Nat) : roundHalfEven num 1 = num := by
  simp [roundHalfEven, Nat.mod_one]

theorem le_roundHalfEven (num den : Nat) : num / den ≤ roundHalfEven num den := by
  simp only [roundHalfEven]
  split <;> try split <;> try split
  all_goals omega

theorem roundHalfEven_le (num den : Nat) : roundHalfEven num den ≤ num / den + 1 := by
  simp only [roundHalfEven]
  split <;> try split <;> try split
  all_goals omega

/-- A floating-point format, by the bits of its significand (the leading one included) and of its
exponent. -/
structure Grid where
  precision : Nat
  exponentBits : Nat
  deriving DecidableEq, Repr

namespace Grid

def double : Grid := ⟨53, 11⟩

def single : Grid := ⟨24, 8⟩

def bias (g : Grid) : Nat := Nat.pow 2 (g.exponentBits - 1) - 1

-- The exponent of the unit of the smallest numbers.
def lowest (g : Grid) : Int := 2 - (g.bias : Int) - g.precision

-- Numbers of one sign are counted from zero in steps of one unit; the count where they end.
def ceiling (g : Grid) : Nat := (Nat.pow 2 g.exponentBits - 1) * Nat.pow 2 (g.precision - 1)

theorem lowest_double : double.lowest = -1074 := by decide

theorem lowest_single : single.lowest = -149 := by decide

end Grid

/-- A ratio of naturals that stands for `m * 2 ^ e`. -/
def scaled (m : Nat) (e : Int) : Nat × Nat :=
  if 0 ≤ e then (m * Nat.pow 2 e.toNat, 1) else (m, Nat.pow 2 (-e).toNat)

/-- The largest `l` with `2 ^ l ≤ num / den`, for a positive ratio. -/
def ratioLog2 (num den : Nat) : Int :=
  let l : Int := (num.log2 : Int) - den.log2
  let (up, down) := scaled 1 l
  if den * up ≤ num * down then l else l - 1

namespace Grid

/-- The exponent of the unit in which the grid holds a number of this size. -/
def unit (g : Grid) (num den : Nat) : Int :=
  max g.lowest (ratioLog2 num den - (g.precision - 1))

/-- The nearest point of the grid, as a count of units and the exponent of the unit. -/
def round (g : Grid) (num den : Nat) : Nat × Int :=
  let e := g.unit num den
  let (up, down) := scaled 1 e
  (roundHalfEven (num * down) (den * up), e)

-- The number of points between zero and `m * 2 ^ e`, a carry into the next exponent included.
def rank (g : Grid) (m : Nat) (e : Int) : Nat :=
  (e - g.lowest).toNat * Nat.pow 2 (g.precision - 1) + m

-- A rank past the ceiling is infinity.
def overflows (g : Grid) (m : Nat) (e : Int) : Bool :=
  g.ceiling ≤ g.rank m e

end Grid
end TreeCodec
