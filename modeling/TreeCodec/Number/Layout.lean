import TreeCodec.Number.Shortest

/-!
Layouts of a decimal number: where the point and the exponent go.

`Layout.tree` is how numbers stand in a JSON tree, `Layout.message` how a double that does not fit a
type is quoted.
-/
namespace TreeCodec

structure Layout where
  -- Whether a number of this exponent (one digit before the point) is written without one.
  plain : Int → Bool
  -- Whether an integral number written without an exponent still shows a fraction digit.
  pointZero : Bool

namespace Layout

/-- Trees write exponents from -5 to 15 out and always show that a number is not an integer. -/
def tree : Layout := ⟨fun e => -5 ≤ e && e ≤ 15, true⟩

/-- Messages never show an exponent. -/
def message : Layout := ⟨fun _ => true, false⟩

private def zeros (n : Int) : String := String.ofList (List.replicate n.toNat '0')

def sign (negative : Bool) : String := if negative then "-" else ""

/-- The text of a decimal whose digits do not end in zero. -/
def render (l : Layout) (d : Decimal) : String :=
  let digits := toString d.digits
  let exponent := d.exponent + digits.length - 1
  if l.plain exponent then
    if exponent < 0 then "0." ++ zeros (-exponent - 1) ++ digits
    else if 0 ≤ d.exponent then digits ++ zeros d.exponent ++ (if l.pointZero then ".0" else "")
    else
      let whole := (exponent + 1).toNat
      String.ofList (digits.toList.take whole) ++ "." ++ String.ofList (digits.toList.drop whole)
  else
    let rest := digits.toList.drop 1
    let mantissa := digits.toList.take 1 ++ (if rest.isEmpty then [] else '.' :: rest)
    let mark := if exponent < 0 then "e-" else "e+"
    String.ofList mantissa ++ mark ++ toString exponent.natAbs

end Layout

/-- The text of a double in a layout. -/
def Double.render (l : Layout) (x : Double) : String :=
  match x.decode with
  | .nan => "NaN"
  | .infinite s => Layout.sign s ++ "inf"
  | .finite s m q =>
    if m = 0 then Layout.sign s ++ (if l.pointZero then "0.0" else "0")
    else Layout.sign s ++ l.render (shortest m q)

end TreeCodec
