import TreeCodec.Number.Double

/-!
Reading numerals: integers within a range, and decimals as doubles.

An integer numeral is an optional sign and ASCII digits. It is read digit by digit, so of a bad
digit and an overflow the one that comes first is reported. A decimal numeral has an optional
fraction and an optional exponent and stands for the nearest double, or for infinity past the
largest one.
-/
namespace TreeCodec

def digit? (c : Char) : Option Nat :=
  if c.isDigit then some (c.toNat - '0'.toNat) else none

/-- The number that a run of digits spells. -/
def spelled (digits : List Char) : Nat :=
  digits.foldl (fun n c => n * 10 + (digit? c).getD 0) 0

inductive IntegerFault where
  | empty
  | invalidDigit
  | tooLarge
  | tooSmall
  deriving DecidableEq, Repr

namespace IntegerFault

def message : IntegerFault → String
  | empty => "cannot parse integer from empty string"
  | invalidDigit => "invalid digit found in string"
  | tooLarge => "number too large to fit in target type"
  | tooSmall => "number too small to fit in target type"

end IntegerFault

namespace Numeral

-- Digits read so far spell `n`.
def digits (limit : Nat) (past : IntegerFault) (n : Nat) : List Char → Except IntegerFault Nat
  | [] => .ok n
  | c :: cs =>
    match digit? c with
    | none => .error .invalidDigit
    | some d => if limit < n * 10 + d then .error past else digits limit past (n * 10 + d) cs

theorem digits_le {limit n m : Nat} {past : IntegerFault} {cs : List Char}
    (h : digits limit past n cs = .ok m) (hn : n ≤ limit) : m ≤ limit := by
  fun_induction digits limit past n cs with
  | case1 n =>
    cases h
    exact hn
  | case2 => simp at h
  | case3 => simp at h
  | case4 n c cs d hd hlt ih => exact ih h (by omega)

/-- The digits after a sign: there has to be one. -/
def magnitude (limit : Nat) (past : IntegerFault) : List Char → Except IntegerFault Nat
  | [] => .error .invalidDigit
  | cs => digits limit past 0 cs

theorem magnitude_le {limit m : Nat} {past : IntegerFault} {cs : List Char}
    (h : magnitude limit past cs = .ok m) : m ≤ limit := by
  cases cs with
  | nil => simp [magnitude] at h
  | cons c cs => exact digits_le h (by omega)

/-- Reads an integer from `least` to `greatest`. A minus sign is no part of a numeral whose range
has no negative numbers. -/
def integer (least : Int) (greatest : Nat) : List Char → Except IntegerFault Int
  | [] => .error .empty
  | '+' :: cs => (magnitude greatest .tooLarge cs).map fun n => (n : Int)
  | '-' :: cs =>
    if least < 0 then (magnitude (-least).toNat .tooSmall cs).map fun n => -(n : Int)
    else .error .invalidDigit
  | cs => (magnitude greatest .tooLarge cs).map fun n => (n : Int)

end Numeral

inductive DecimalFault where
  | empty
  | invalid
  deriving DecidableEq, Repr

namespace DecimalFault

def message : DecimalFault → String
  | empty => "cannot parse float from empty string"
  | invalid => "invalid float literal"

end DecimalFault

/-- The double nearest to `± digits * 10 ^ exponent`. Exponents far outside the range of doubles are
settled by the number of digits alone. -/
def Double.ofDecimal (negative : Bool) (digits : Nat) (exponent : Int) : Double :=
  if digits = 0 then zero negative
  else
    let size : Int := (Nat.toDigits 10 digits).length
    if 310 < exponent + size then infinity negative
    else if exponent + size < -330 then zero negative
    else if 0 ≤ exponent then ofRatio negative (digits * Nat.pow 10 exponent.toNat) 1
    else ofRatio negative digits (Nat.pow 10 (-exponent).toNat)

namespace Numeral

-- The sign in front of a numeral, and the rest.
def sign : List Char → Bool × List Char
  | '-' :: cs => (true, cs)
  | '+' :: cs => (false, cs)
  | cs => (false, cs)

/-- The exponent that ends a decimal numeral: nothing, or a mark, a sign and digits. -/
def exponent? : List Char → Option Int
  | [] => some 0
  | c :: cs =>
    if c = 'e' ∨ c = 'E' then
      let (negative, ds) := sign cs
      if ds.isEmpty ∨ ¬ ds.all Char.isDigit then none
      else some (if negative then -(spelled ds : Int) else spelled ds)
    else none

/-- An unsigned decimal numeral, as digits and the exponent of the last one. A digit has to stand
before or after the point. -/
def decimal? (cs : List Char) : Option (Nat × Int) :=
  let whole := cs.takeWhile Char.isDigit
  let rest := cs.dropWhile Char.isDigit
  let (fraction, tail) : List Char × List Char :=
    match rest with
    | '.' :: r => (r.takeWhile Char.isDigit, r.dropWhile Char.isDigit)
    | r => ([], r)
  if whole.isEmpty && fraction.isEmpty then none
  else (exponent? tail).map fun e => (spelled (whole ++ fraction), e - fraction.length)

/-- Reads a double: a decimal numeral, or `inf`, `infinity` or `nan` in any case. -/
def double : List Char → Except DecimalFault Double
  | [] => .error .empty
  | text =>
    let (negative, body) := sign text
    let word := String.ofList (body.map Char.toLower)
    if word = "inf" ∨ word = "infinity" then .ok (.infinity negative)
    else if word = "nan" then .ok .nan
    else
      match decimal? body with
      | some (digits, exponent) => .ok (.ofDecimal negative digits exponent)
      | none => .error .invalid

end Numeral
end TreeCodec
