import TreeCodec.Number.Numeral
import TreeCodec.Proofs.DoubleValue

/-!
What numbers become as doubles, and doubles in single precision.

A number from the limit of a format on is infinite in it, and any other one is finite. A finite
result is on no other side of a number of the format than what was rounded.
-/
namespace TreeCodec

namespace Grid

theorem limit_eq {g : Grid} {n : ℕ} (h : g.highest = (n + 1 : ℕ)) :
    g.limit = 2 ^ (g.precision + n + 1) - 2 ^ n := by
  rw [limit, h, zpow_natCast]
  ring

theorem limit_double : double.limit = 2 ^ 1024 - 2 ^ 970 := by
  rw [limit_eq (n := 970) (by decide), show double.precision = 53 from rfl]

theorem limit_single : single.limit = 2 ^ 128 - 2 ^ 103 := by
  rw [limit_eq (n := 103) (by decide), show single.precision = 24 from rfl]

end Grid

namespace Double

open Grid

variable {s : Bool} {x : Double} {rank m : ℕ} {e : ℤ} {r : ℚ}

theorem ceiling_double : Grid.double.ceiling = 2047 * 2 ^ 52 := rfl

theorem toNat_pack (s : Bool) (rank : ℕ) : (pack s rank).bits.toNat =
    (if s then 2 ^ 63 else 0) + min rank (2047 * 2 ^ 52) := by
  have hlt : (if s then 2 ^ 63 else 0) + min rank (2047 * 2 ^ 52) < 2 ^ 64 := by
    split <;> omega
  rw [pack, ceiling_double]
  exact Nat.mod_eq_of_lt hlt

theorem exponent_pack : (pack s rank).exponent =
    min rank (2047 * 2 ^ 52) / 2 ^ 52 := by
  show (pack s rank).bits.toNat / 2 ^ 52 % 2048 = _
  rw [toNat_pack]
  split <;> omega

theorem fraction_pack : (pack s rank).fraction =
    min rank (2047 * 2 ^ 52) % 2 ^ 52 := by
  show (pack s rank).bits.toNat % 2 ^ 52 = _
  rw [toNat_pack]
  split <;> omega

theorem pack_of_overflows (h : Grid.double.overflows m e) :
    pack s (Grid.double.rank m e) = infinity s := by
  rw [overflows, decide_eq_true_iff] at h
  rw [infinity, pack, pack, Nat.min_eq_right h, Nat.min_self]

theorem isFinite_pack : (pack s (Grid.double.rank m e)).isFinite ↔ ¬Grid.double.overflows m e := by
  rw [isFinite_iff, exponent_pack, overflows, decide_eq_true_iff, ceiling_double]
  omega

-- The count of units goes to the fraction, and what exceeds it to the exponent.
theorem magnitude_pack (h : Grid.double.Rounds r m e) (hf : ¬Grid.double.overflows m e) :
    (pack s (Grid.double.rank m e)).magnitude = m * 2 ^ e := by
  obtain ⟨d, rfl⟩ := Int.le.dest h.lowest
  have hrank : Grid.double.rank m (Grid.double.lowest + d) = d * 2 ^ 52 + m := by
    rw [rank, show Grid.double.lowest + d - Grid.double.lowest = d by omega, Int.toNat_natCast]
    rfl
  have hcount : m ≤ 2 ^ 53 := h.count_le
  have hd : m < 2 ^ 52 → d = 0 := fun hm => by
    by_contra hd
    have hnormal : 2 ^ 52 ≤ m := h.le_count (by decide) (by omega)
    omega
  rw [overflows, decide_eq_true_iff, ceiling_double, hrank] at hf
  rw [magnitude_eq, exponent_pack, fraction_pack, hrank, Nat.min_eq_left (by omega), lowest_double]
  rcases Nat.lt_or_ge m (2 ^ 52) with hm | hm
  · obtain rfl := hd hm
    rw [if_pos (by omega), show (0 * 2 ^ 52 + m) % 2 ^ 52 = m by omega]
    rfl
  · rw [if_neg (by omega)]
    rcases Nat.lt_or_ge m (2 ^ 53) with hlt | hge
    · obtain ⟨f, rfl⟩ := Nat.exists_eq_add_of_le hm
      rw [show (d * 2 ^ 52 + (2 ^ 52 + f)) / 2 ^ 52 = d + 1 by omega,
        show (d * 2 ^ 52 + (2 ^ 52 + f)) % 2 ^ 52 = f by omega,
        show ((d + 1 : ℕ) : ℤ) - 1075 = -1074 + d by omega]
      norm_num
    · obtain rfl : m = 2 ^ 53 := by omega
      rw [show (d * 2 ^ 52 + 2 ^ 53) / 2 ^ 52 = d + 2 by omega,
        show (d * 2 ^ 52 + 2 ^ 53) % 2 ^ 52 = 0 by omega,
        show ((d + 2 : ℕ) : ℤ) - 1075 = -1074 + d + 1 by omega, zpow_add_one₀ two_ne_zero]
      norm_num
      ring

theorem magnitude_zero (s : Bool) : (zero s).magnitude = 0 := by
  rw [magnitude_eq, zero, exponent_pack, fraction_pack]
  simp

theorem isFinite_zero (s : Bool) : (zero s).isFinite := by
  rw [isFinite_iff, zero, exponent_pack]
  decide

theorem not_isFinite_infinity (s : Bool) : ¬(infinity s).isFinite := by
  rw [isFinite_iff, infinity, exponent_pack]
  decide

theorem magnitude_lt_limit (h : x.isFinite) : x.magnitude < Grid.double.limit := by
  have hfraction : x.fraction < 2 ^ 52 := Nat.mod_lt _ (by decide)
  have hexponent : x.exponent < 2048 := Nat.mod_lt _ (by decide)
  have hfinite := isFinite_iff.mp h
  obtain ⟨k, j, hk, hj, heq⟩ :
      ∃ (k : ℕ) (j : ℤ), k + 1 ≤ 2 ^ 53 ∧ j ≤ 971 ∧ x.magnitude = k * 2 ^ j := by
    rw [magnitude_eq]
    split
    · exact ⟨x.fraction, -1074, by omega, by omega, rfl⟩
    · exact ⟨2 ^ 52 + x.fraction, x.exponent - 1075, by omega, by omega, by norm_num⟩
  have hk' : (k : ℚ) + 1 ≤ 2 ^ 53 := by exact_mod_cast hk
  rw [heq, limit, show Grid.double.highest = 971 by decide,
    show Grid.double.precision = 53 from rfl]
  calc (k : ℚ) * 2 ^ j ≤ k * 2 ^ (971 : ℤ) := by
        gcongr
        exact one_le_two
    _ < (2 ^ 53 - 1 / 2) * 2 ^ (971 : ℤ) := by
        gcongr
        linarith

-- What `r` becomes as a double under a sign.
inductive Rounded (s : Bool) (r : ℚ) : Double → Prop where
  | infinite (h : Grid.double.limit ≤ r) : Rounded s r (infinity s)
  | finite {x : Double} (h : r < Grid.double.limit) (hfinite : x.isFinite)
      (le_point : ∀ y, Grid.double.Point y → r ≤ y → x.magnitude ≤ y)
      (point_le : ∀ y, Grid.double.Point y → y ≤ r → y ≤ x.magnitude) : Rounded s r x

theorem Rounded.isFinite (h : Rounded s r x) (hr : r < Grid.double.limit) : x.isFinite := by
  cases h with
  | infinite h => exact absurd hr h.not_gt
  | finite _ hfinite => exact hfinite

theorem rounded_self (s : Bool) (h : x.isFinite) : Rounded s x.magnitude x :=
  .finite (magnitude_lt_limit h) h (fun _ _ => id) fun _ _ => id

-- Less than the least point.
theorem rounded_zero (s : Bool) (h0 : 0 ≤ r) (h : r < 2 ^ (-1074 : ℤ)) : Rounded s r (zero s) := by
  have hlimit : (2 : ℚ) ^ (-1074 : ℤ) < Grid.double.limit :=
    lt_limit (by decide) <| zpow_le_zpow_right₀ one_le_two (by decide)
  refine .finite (h.trans hlimit) (isFinite_zero s) (fun y _ hy => ?_) fun y hy hle => ?_
  · rw [magnitude_zero]
    exact h0.trans hy
  · obtain ⟨k, j, -, hj, rfl⟩ := hy
    rw [magnitude_zero]
    have hk : k = 0 := by
      by_contra hk
      have hk : (1 : ℚ) ≤ k := by exact_mod_cast Nat.pos_of_ne_zero hk
      refine (hle.trans_lt h).not_ge ?_
      calc (2 : ℚ) ^ (-1074 : ℤ) ≤ 2 ^ j := zpow_le_zpow_right₀ one_le_two hj
        _ ≤ k * 2 ^ j := le_mul_of_one_le_left (by positivity) hk
    simp [hk]

theorem ofRatio_rounded (s : Bool) (num : ℕ) {den : ℕ} (hd : 0 < den) :
    Rounded s (num / den) (ofRatio s num den) := by
  unfold ofRatio
  split
  case isTrue h =>
    rw [h, Nat.cast_zero, zero_div]
    exact rounded_zero s le_rfl (by positivity)
  case isFalse h =>
    have hround := Grid.round_rounds (g := Grid.double) (Nat.pos_of_ne_zero h) hd
    cases hme : Grid.double.round num den with
    | mk m e =>
      rw [hme] at hround
      have hlimit := hround.overflows_iff (by decide) (by decide)
      by_cases ho : Grid.double.overflows m e
      case pos =>
        simp only [pack_of_overflows ho]
        exact .infinite (hlimit.mp ho)
      case neg =>
        have hvalue := magnitude_pack (s := s) hround ho
        refine .finite (not_le.mp (mt hlimit.mpr ho)) (isFinite_pack.mpr ho) ?_ ?_
        · intro y hy hle
          rw [hvalue]
          exact hround.le_point (by decide) hy hle
        · intro y hy hle
          rw [hvalue]
          exact hround.point_le (by decide) hy hle

theorem ofScaled_rounded (s : Bool) (m : ℕ) (e : ℤ) :
    Rounded s (m * 2 ^ e) (ofScaled s m e) := by
  rw [← scaled_div]
  exact ofRatio_rounded s _ (scaled_pos m e)

theorem ofInt_rounded (n : ℤ) : Rounded (n < 0) |(n : ℚ)| (ofInt n) := by
  have h := ofRatio_rounded (n < 0) n.natAbs Nat.one_pos
  rwa [Nat.cast_one, div_one, Nat.cast_natAbs, Int.cast_abs] at h

theorem length_toDigits_pos (n : ℕ) : 0 < (Nat.toDigits 10 n).length :=
  List.length_pos_iff.mpr Nat.toDigits_ne_nil

section

variable {n : ℕ} {exponent : ℤ}

-- A number is as large as the number of its digits says.
theorem pow_length_le (hn : 0 < n) : (10 : ℚ) ^ ((Nat.toDigits 10 n).length - 1 : ℤ) ≤ n := by
  have hpos := length_toDigits_pos n
  obtain ⟨k, hk⟩ : ∃ k, (Nat.toDigits 10 n).length = k + 1 := ⟨_, (Nat.succ_pred hpos.ne').symm⟩
  rw [hk, show ((k + 1 : ℕ) : ℤ) - 1 = k by omega, zpow_natCast]
  have hle : 10 ^ k ≤ n := by
    rcases Nat.eq_zero_or_pos k with rfl | hk0
    · exact hn
    · refine not_lt.mp fun hlt => ?_
      have := (Nat.length_toDigits_le_iff (b := 10) (by decide) hk0).mpr hlt
      omega
  exact_mod_cast hle

theorem lt_pow_length : (n : ℚ) < 10 ^ ((Nat.toDigits 10 n).length : ℤ) := by
  have hlt := (Nat.length_toDigits_le_iff (b := 10) (by decide) (length_toDigits_pos n)).mp le_rfl
  rw [zpow_natCast]
  exact_mod_cast hlt

theorem limit_le_decimal (hn : 0 < n) (h : 310 < exponent + (Nat.toDigits 10 n).length) :
    Grid.double.limit ≤ n * 10 ^ exponent := by
  have hten : (2 : ℚ) ^ 1024 ≤ 10 ^ 310 := by
    exact_mod_cast (by decide +kernel : 2 ^ 1024 ≤ 10 ^ 310)
  calc Grid.double.limit ≤ 2 ^ 1024 := by
        rw [limit_double]
        exact sub_le_self _ (by positivity)
    _ ≤ 10 ^ (310 : ℤ) := hten
    _ ≤ 10 ^ ((Nat.toDigits 10 n).length - 1 + exponent : ℤ) :=
      zpow_le_zpow_right₀ (by norm_num) (by omega)
    _ = 10 ^ ((Nat.toDigits 10 n).length - 1 : ℤ) * 10 ^ exponent := zpow_add₀ (by norm_num) _ _
    _ ≤ n * 10 ^ exponent := by
      gcongr
      exact pow_length_le hn

theorem decimal_lt (h : exponent + (Nat.toDigits 10 n).length < -330) :
    n * 10 ^ exponent < (2 : ℚ) ^ (-1074 : ℤ) := by
  have hten : (2 : ℚ) ^ 1074 < 10 ^ 331 := by
    exact_mod_cast (by decide +kernel : 2 ^ 1074 < 10 ^ 331)
  calc (n : ℚ) * 10 ^ exponent
      < 10 ^ ((Nat.toDigits 10 n).length : ℤ) * 10 ^ exponent := by
        gcongr
        exact lt_pow_length
    _ = 10 ^ ((Nat.toDigits 10 n).length + exponent : ℤ) := (zpow_add₀ (by norm_num) _ _).symm
    _ ≤ 10 ^ (-331 : ℤ) := zpow_le_zpow_right₀ (by norm_num) (by omega)
    _ < 2 ^ (-1074 : ℤ) := by
      rw [zpow_neg, zpow_neg]
      exact inv_strictAnti₀ (by positivity) hten

end

theorem ofDecimal_rounded (s : Bool) (digits : ℕ) (exponent : ℤ) :
    Rounded s (digits * 10 ^ exponent) (ofDecimal s digits exponent) := by
  unfold ofDecimal
  split
  case isTrue h =>
    rw [h, Nat.cast_zero, zero_mul]
    exact rounded_zero s le_rfl (by positivity)
  case isFalse h =>
    have hpos := Nat.pos_of_ne_zero h
    simp only
    split
    case isTrue hlarge => exact .infinite (limit_le_decimal hpos hlarge)
    case isFalse =>
      split
      case isTrue hsmall => exact rounded_zero s (by positivity) (decimal_lt hsmall)
      case isFalse =>
        split
        case isTrue hexp =>
          obtain ⟨n, rfl⟩ := Int.eq_ofNat_of_zero_le hexp
          have hround := ofRatio_rounded s (digits * 10 ^ n) Nat.one_pos
          rw [zpow_natCast]
          simpa [Nat.pow_eq] using hround
        case isFalse hexp =>
          obtain ⟨n, hn⟩ := Int.eq_ofNat_of_zero_le (by omega : 0 ≤ -exponent)
          obtain rfl : exponent = -n := by omega
          have hround := ofRatio_rounded s digits (Nat.pow_pos (n := n) (by decide : 0 < 10))
          rw [zpow_neg, zpow_natCast, ← div_eq_mul_inv]
          simpa [Nat.pow_eq] using hround

theorem isFinite_toSingle (h : x.isFinite) :
    x.toSingle.isFinite ↔ x.magnitude < Grid.single.limit := by
  obtain ⟨m, q, hdecode, hvalue⟩ := decode_of_finite h
  rw [toSingle, hdecode, hvalue]
  simp only
  split
  case isTrue hm =>
    rw [hm, Nat.cast_zero, zero_mul]
    exact iff_of_true h <| lt_limit (by decide) (by positivity)
  case isFalse hm =>
    have hpos := scaled_num_pos (Nat.pos_of_ne_zero hm) q
    have hround := Grid.round_rounds (g := Grid.single) hpos (scaled_pos m q)
    rw [scaled_div] at hround
    have hlimit := hround.overflows_iff (by decide) (by decide)
    rw [← not_le, ← hlimit]
    split
    case isTrue ho => exact iff_of_false (not_isFinite_infinity _) (not_not_intro ho)
    case isFalse ho =>
      refine iff_of_true ?_ ho
      -- The single is at most the power of two next to the largest one, which is a double.
      have hpoint : Grid.single.Point (2 ^ (128 : ℤ)) :=
        ⟨2 ^ 24, 104, le_rfl, by decide, by norm_num⟩
      have hlt : (m : ℚ) * 2 ^ q < 2 ^ (128 : ℤ) :=
        (not_le.mp (mt hlimit.mpr ho)).trans (by norm_num [limit_single])
      have hle := hround.le_point (by decide) hpoint hlt.le
      have hfits : (2 : ℚ) ^ (128 : ℤ) ≤ 2 ^ Grid.double.highest :=
        zpow_le_zpow_right₀ one_le_two (by decide)
      exact (ofScaled_rounded ..).isFinite <| lt_limit (by decide) (hle.trans hfits)

end Double
end TreeCodec
