import Mathlib.Data.Nat.Cast.Field
import TreeCodec.Number.Double
import TreeCodec.Proofs.GridRounding

/-!
What doubles are as numbers.

The number of a finite double is read off its three fields. It is an integer exactly if the double
is taken for one.
-/
namespace TreeCodec

-- A ratio is an integer exactly if nothing remains when it is divided.
theorem ratio_eq_iff {num den : ℕ} (hd : 0 < den) {k : ℤ} :
    (num : ℚ) / den = k ↔ num % den = 0 ∧ ((num / den : ℕ) : ℤ) = k := by
  have hd' : (den : ℚ) ≠ 0 := by exact_mod_cast hd.ne'
  constructor
  · intro h
    rw [div_eq_iff hd'] at h
    have hk : (num : ℤ) = k * den := by exact_mod_cast h
    have hdvd : den ∣ num := Int.natCast_dvd_natCast.mp ⟨k, by rw [hk, mul_comm]⟩
    refine ⟨Nat.mod_eq_zero_of_dvd hdvd, ?_⟩
    rw [Int.natCast_div, hk, Int.mul_ediv_cancel _ (by omega)]
  · rintro ⟨hmod, rfl⟩
    rw [Int.cast_natCast, Nat.cast_div (Nat.dvd_of_mod_eq_zero hmod) hd']

namespace Double

-- The number of a finite double without its sign. A number with the least exponent has no leading
-- one.
def magnitude (x : Double) : ℚ :=
  if x.exponent = 0 then x.fraction / 2 ^ 52 * (2 : ℚ) ^ (-1022 : ℤ)
  else (1 + x.fraction / 2 ^ 52) * (2 : ℚ) ^ ((x.exponent : ℤ) - 1023)

def value (x : Double) : ℚ := if x.negative then -x.magnitude else x.magnitude

variable {x : Double}

theorem magnitude_nonneg (x : Double) : 0 ≤ x.magnitude := by
  unfold magnitude
  split <;> positivity

theorem abs_value (x : Double) : |x.value| = x.magnitude := by
  unfold value
  split <;> simp [abs_of_nonneg x.magnitude_nonneg]

-- The same number as a multiple of its last digit.
theorem magnitude_eq (x : Double) : x.magnitude =
    if x.exponent = 0 then x.fraction * (2 : ℚ) ^ (-1074 : ℤ)
    else (2 ^ 52 + x.fraction) * (2 : ℚ) ^ ((x.exponent : ℤ) - 1075) := by
  unfold magnitude
  split
  case isTrue =>
    rw [show (-1022 : ℤ) = -1074 + (52 : ℕ) by rfl, zpow_add₀ two_ne_zero, zpow_natCast]
    field_simp
  case isFalse =>
    rw [show (x.exponent : ℤ) - 1023 = x.exponent - 1075 + (52 : ℕ) by omega,
      zpow_add₀ two_ne_zero, zpow_natCast]
    field_simp

theorem isFinite_iff : x.isFinite ↔ x.exponent ≠ 2047 := by simp [isFinite]

theorem decode_of_finite (h : x.isFinite) :
    ∃ m q, x.decode = .finite x.negative m q ∧ x.magnitude = m * (2 : ℚ) ^ q := by
  unfold decode
  rw [magnitude_eq, if_neg (isFinite_iff.mp h)]
  split
  case isTrue => exact ⟨_, _, rfl, rfl⟩
  case isFalse => exact ⟨_, _, rfl, by push_cast [Nat.pow_eq]; rfl⟩

theorem decode_ne_finite (h : x.isFinite = false) (s : Bool) (m : Nat) (q : Int) :
    x.decode ≠ .finite s m q := by
  have hexp : x.exponent = Nat.pow 2 11 - 1 := by simpa [isFinite] using h
  unfold decode
  rw [if_pos hexp]
  split <;> nofun

-- A double is taken for an integer exactly if its number is this integer.
theorem toInt?_eq_some_iff {k : ℤ} : x.toInt? = some k ↔ x.isFinite ∧ x.value = k := by
  cases hf : x.isFinite with
  | false =>
    unfold toInt?
    split
    case h_1 s m q hd => exact absurd hd <| decode_ne_finite hf s m q
    case h_2 => simp
  | true =>
    obtain ⟨m, q, hd, hm⟩ := decode_of_finite hf
    have hden := scaled_pos m q
    rw [← scaled_div] at hm
    simp only [toInt?, hd, value, hm, true_and]
    cases x.negative with
    | false => simp [ratio_eq_iff hden]
    | true =>
      simp only [if_true]
      rw [neg_eq_iff_eq_neg, ← Int.cast_neg, ratio_eq_iff hden]
      simp only [Option.ite_none_right_eq_some, Option.some.injEq, neg_eq_iff_eq_neg]

end Double
end TreeCodec
