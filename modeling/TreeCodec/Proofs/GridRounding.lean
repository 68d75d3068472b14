import Mathlib.Algebra.Order.Field.Power
import Mathlib.Algebra.Order.Field.Rat
import Mathlib.Algebra.Ring.Parity
import Mathlib.Data.Rat.Cast.Order
import Mathlib.Tactic.FieldSimp
import Mathlib.Tactic.Linarith
import Mathlib.Tactic.Positivity
import Mathlib.Tactic.Ring
import TreeCodec.Number.Rounding

/-!
What rounding to a floating-point grid gives.

The point that a number is rounded to is a nearest multiple of a unit, and the unit goes with the
size of the number. So no point of the grid is passed in rounding, and a number is rounded past the
grid exactly if it is not below the middle between the largest point and the next power of two.
-/
namespace TreeCodec

theorem scaled_pos (m : Nat) (e : Int) : 0 < (scaled m e).2 := by
  unfold scaled
  split
  · exact Nat.one_pos
  · exact Nat.two_pow_pos _

theorem scaled_num_pos {m : Nat} (hm : 0 < m) (e : Int) : 0 < (scaled m e).1 := by
  unfold scaled
  split
  · exact Nat.mul_pos hm (Nat.two_pow_pos _)
  · exact hm

-- The ratio that stands for `m * 2 ^ e` is this number.
theorem scaled_div (m : Nat) (e : Int) :
    ((scaled m e).1 : ℚ) / (scaled m e).2 = m * (2 : ℚ) ^ e := by
  unfold scaled
  split
  case isTrue h =>
    obtain ⟨n, rfl⟩ := Int.eq_ofNat_of_zero_le h
    simp [Nat.pow_eq]
  case isFalse h =>
    obtain ⟨n, hn⟩ := Int.eq_ofNat_of_zero_le (Int.le_of_lt (by omega : 0 < -e))
    obtain rfl : e = -n := by omega
    simp [Nat.pow_eq, div_eq_mul_inv]

-- The integer next to a rational, and the even one of two that are equally near.
structure NearestEven (q : ℚ) (m : ℕ) : Prop where
  near : |m - q| ≤ 1 / 2
  even : |m - q| = 1 / 2 → Even m

theorem NearestEven.of_lt {q : ℚ} {m : ℕ} (h : |m - q| < 1 / 2) : NearestEven q m :=
  ⟨h.le, fun h' => absurd h' h.ne⟩

theorem NearestEven.of_even {q : ℚ} {m : ℕ} (hm : Even m) (h : |m - q| ≤ 1 / 2) :
    NearestEven q m :=
  ⟨h, fun _ => hm⟩

-- What a ratio has over its floor, which rounding compares with a half.
theorem exists_fraction (num : ℕ) {den : ℕ} (hd : 0 < den) :
    ∃ f : ℚ, (num : ℚ) / den = (num / den : ℕ) + f ∧ 0 ≤ f ∧ f < 1 ∧
      (2 * (num % den) < den ↔ f < 1 / 2) ∧ (den < 2 * (num % den) ↔ 1 / 2 < f) := by
  have hd' : (0 : ℚ) < den := by exact_mod_cast hd
  have hdiv : (num : ℚ) = den * (num / den : ℕ) + (num % den : ℕ) := by
    exact_mod_cast (Nat.div_add_mod num den).symm
  have hmod : ((num % den : ℕ) : ℚ) < den := by exact_mod_cast Nat.mod_lt num hd
  refine ⟨(num % den : ℕ) / den, ?_, by positivity, (div_lt_one hd').mpr hmod, ?_, ?_⟩
  · rw [div_eq_iff hd'.ne', add_mul, div_mul_cancel₀ _ hd'.ne', mul_comm]
    exact hdiv
  · rw [div_lt_iff₀ hd', ← Nat.cast_lt (α := ℚ)]
    push_cast
    constructor <;> intro h <;> linarith
  · rw [lt_div_iff₀ hd', ← Nat.cast_lt (α := ℚ)]
    push_cast
    constructor <;> intro h <;> linarith

theorem roundHalfEven_nearest (num : ℕ) {den : ℕ} (hd : 0 < den) :
    NearestEven (num / den) (roundHalfEven num den) := by
  obtain ⟨f, hq, h0, h1, hlt, hgt⟩ := exists_fraction num hd
  simp only [roundHalfEven, hlt, hgt, hq]
  generalize num / den = a
  split
  case isTrue h => exact .of_lt <| abs_lt.mpr ⟨by linarith, by linarith⟩
  case isFalse h =>
    split
    case isTrue h' =>
      refine .of_lt <| abs_lt.mpr ?_
      push_cast
      exact ⟨by linarith, by linarith⟩
    case isFalse h' =>
      -- The ratio is half-way between two integers.
      split
      case isTrue ha =>
        exact .of_even (Nat.even_iff.mpr ha) <| abs_le.mpr ⟨by linarith, by linarith⟩
      case isFalse ha =>
        refine .of_even (Nat.even_iff.mpr (by omega)) <| abs_le.mpr ?_
        push_cast
        exact ⟨by linarith, by linarith⟩

namespace NearestEven

variable {q : ℚ} {m k : ℕ}

-- Rounding does not pass an integer.
theorem le (h : NearestEven q m) (hk : q ≤ k) : m ≤ k := by
  have hm := (abs_le.mp h.near).right
  have hlt : (m : ℚ) < k + 1 := by linarith
  exact Nat.lt_succ_iff.mp (by exact_mod_cast hlt)

theorem ge (h : NearestEven q m) (hk : k ≤ q) : k ≤ m := by
  have hm := (abs_le.mp h.near).left
  have hlt : (k : ℚ) < m + 1 := by linarith
  exact Nat.lt_succ_iff.mp (by exact_mod_cast hlt)

-- An even number is rounded to from half a unit below it on.
theorem even_le_iff (h : NearestEven q m) (hk : Even k) : k ≤ m ↔ k - 1 / 2 ≤ q := by
  have ⟨hl, hr⟩ := abs_le.mp h.near
  constructor
  · intro hle
    have : (k : ℚ) ≤ m := by exact_mod_cast hle
    linarith
  · intro hle
    by_contra hlt
    have hlt : m + 1 ≤ k := by omega
    have hcast : (m : ℚ) + 1 ≤ k := by exact_mod_cast hlt
    -- The number is right between `m` and `k`, which are both even and next to each other.
    have hm : Even m := h.even (by rw [abs_of_nonpos] <;> linarith)
    have heq : (k : ℚ) = m + 1 := by linarith
    have heq : k = m + 1 := by exact_mod_cast heq
    rw [heq, Nat.even_add_one] at hk
    exact hk hm

end NearestEven

section

variable {num den : ℕ}

theorem scaled_one_le_iff (hd : 0 < den) (l : ℤ) :
    den * (scaled 1 l).1 ≤ num * (scaled 1 l).2 ↔ (2 : ℚ) ^ l ≤ num / den := by
  have hd' : (0 : ℚ) < den := by exact_mod_cast hd
  have hs : (0 : ℚ) < (scaled 1 l).2 := by exact_mod_cast scaled_pos 1 l
  have hl := scaled_div 1 l
  rw [Nat.cast_one, one_mul] at hl
  rw [← hl, div_le_div_iff₀ hs hd', ← Nat.cast_le (α := ℚ)]
  push_cast
  rw [mul_comm (den : ℚ)]

theorem ratioLog2_spec (hn : 0 < num) (hd : 0 < den) :
    (2 : ℚ) ^ ratioLog2 num den ≤ num / den ∧ (num : ℚ) / den < 2 ^ (ratioLog2 num den + 1) := by
  have hd' : (0 : ℚ) < den := by exact_mod_cast hd
  have hnl : (2 : ℚ) ^ num.log2 ≤ num := by exact_mod_cast Nat.log2_self_le hn.ne'
  have hnu : (num : ℚ) < 2 ^ (num.log2 + 1) := by exact_mod_cast Nat.lt_log2_self
  have hdl : (2 : ℚ) ^ den.log2 ≤ den := by exact_mod_cast Nat.log2_self_le hd.ne'
  have hdu : (den : ℚ) < 2 ^ (den.log2 + 1) := by exact_mod_cast Nat.lt_log2_self
  have hlower : (2 : ℚ) ^ ((num.log2 : ℤ) - den.log2 - 1) ≤ num / den := by
    rw [le_div_iff₀ hd']
    calc (2 : ℚ) ^ ((num.log2 : ℤ) - den.log2 - 1) * den
        ≤ 2 ^ ((num.log2 : ℤ) - den.log2 - 1) * 2 ^ ((den.log2 + 1 : ℕ) : ℤ) := by
          rw [zpow_natCast]
          gcongr
      _ = 2 ^ (num.log2 : ℤ) := by
          rw [← zpow_add₀ two_ne_zero]
          congr 1
          push_cast
          ring
      _ ≤ num := by rwa [zpow_natCast]
  have hupper : (num : ℚ) / den < 2 ^ ((num.log2 : ℤ) - den.log2 + 1) := by
    rw [div_lt_iff₀ hd']
    calc (num : ℚ) < 2 ^ ((num.log2 + 1 : ℕ) : ℤ) := by rwa [zpow_natCast]
      _ = 2 ^ ((num.log2 : ℤ) - den.log2 + 1) * 2 ^ (den.log2 : ℤ) := by
          rw [← zpow_add₀ two_ne_zero]
          congr 1
          push_cast
          ring
      _ ≤ 2 ^ ((num.log2 : ℤ) - den.log2 + 1) * den := by
          rw [zpow_natCast]
          gcongr
  simp only [ratioLog2, scaled_one_le_iff hd]
  split
  case isTrue h => exact ⟨h, hupper⟩
  case isFalse h => exact ⟨hlower, by simpa using h⟩

end

namespace Grid

variable {g : Grid} {x y : ℚ} {m : ℕ} {e : ℤ}

-- A positive number is held as `m` units of `2 ^ e`. The unit is the smallest one in which the
-- number has no more digits than the grid, and only the least unit counts fewer.
structure Rounds (g : Grid) (x : ℚ) (m : ℕ) (e : ℤ) : Prop where
  lowest  : g.lowest ≤ e
  below   : x < 2 ^ (e + g.precision)
  normal  : g.lowest < e → 2 ^ (e + g.precision - 1) ≤ x
  nearest : NearestEven (x / 2 ^ e) m

theorem round_rounds {num den : ℕ} (hn : 0 < num) (hd : 0 < den) :
    g.Rounds (num / den) (g.round num den).1 (g.round num den).2 := by
  have ⟨hl, hu⟩ := ratioLog2_spec hn hd
  have he : (g.round num den).2 = max g.lowest (ratioLog2 num den - (g.precision - 1)) := rfl
  refine ⟨?_, ?_, fun h => ?_, ?_⟩
  · rw [he]
    exact le_max_left ..
  · refine lt_of_lt_of_le hu (zpow_le_zpow_right₀ one_le_two ?_)
    omega
  · refine le_trans (le_of_eq ?_) hl
    congr 1
    omega
  · simp only [round]
    generalize g.unit num den = e
    have hdiv := scaled_div 1 e
    rw [Nat.cast_one, one_mul] at hdiv
    have hden := Nat.mul_pos hd (scaled_num_pos Nat.one_pos e)
    have hround := roundHalfEven_nearest (num * (scaled 1 e).2) hden
    rw [← hdiv, div_div_div_eq]
    exact_mod_cast hround

-- The multiples of the unit are not passed.
theorem Rounds.le (h : g.Rounds x m e) {k : ℕ} (hk : x ≤ k * 2 ^ e) : m ≤ k :=
  h.nearest.le <| (div_le_iff₀ (by positivity)).mpr hk

theorem Rounds.ge (h : g.Rounds x m e) {k : ℕ} (hk : k * 2 ^ e ≤ x) : k ≤ m :=
  h.nearest.ge <| (le_div_iff₀ (by positivity)).mpr hk

theorem Rounds.count_le (h : g.Rounds x m e) : m ≤ 2 ^ g.precision := by
  refine h.le ?_
  rw [Nat.cast_pow, Nat.cast_ofNat, ← zpow_natCast, ← zpow_add₀ two_ne_zero, add_comm]
  exact h.below.le

theorem half_count_mul (hp : 0 < g.precision) (e : ℤ) :
    ((2 ^ (g.precision - 1) : ℕ) : ℚ) * 2 ^ e = 2 ^ (e + g.precision - 1) := by
  rw [Nat.cast_pow, Nat.cast_ofNat, ← zpow_natCast, ← zpow_add₀ two_ne_zero]
  congr 1
  omega

theorem Rounds.le_count (hp : 0 < g.precision) (h : g.Rounds x m e) (he : g.lowest < e) :
    2 ^ (g.precision - 1) ≤ m := by
  refine h.ge ?_
  rw [half_count_mul hp]
  exact h.normal he

-- The numbers that the grid holds, and the powers of two that come next to them.
def Point (g : Grid) (y : ℚ) : Prop :=
  ∃ (k : ℕ) (j : ℤ), k ≤ 2 ^ g.precision ∧ g.lowest ≤ j ∧ y = k * 2 ^ j

-- All digits are ones.
theorem point_ones {a n : ℕ} (ha : a ≤ g.precision) (hn : g.lowest ≤ n) :
    g.Point (2 ^ (a + n) - 2 ^ n) := by
  refine ⟨2 ^ a - 1, n, ?_, hn, ?_⟩
  · exact (Nat.sub_le _ _).trans (Nat.pow_le_pow_right (by decide) ha)
  · rw [Nat.cast_sub (Nat.one_le_two_pow), zpow_natCast]
    push_cast
    ring

-- A point is a multiple of a unit, or no number that has this unit is less.
theorem Point.multiple_or_le (hy : g.Point y) (hp : 0 < g.precision) (e : ℤ) :
    (∃ k : ℕ, y = k * 2 ^ e) ∨ y ≤ (2 ^ (g.precision - 1) : ℕ) * 2 ^ e ∧ g.lowest < e := by
  obtain ⟨k, j, hk, hj, rfl⟩ := hy
  by_cases he : e ≤ j
  case pos =>
    obtain ⟨d, rfl⟩ := Int.le.dest he
    left
    refine ⟨k * 2 ^ d, ?_⟩
    rw [zpow_add₀ two_ne_zero, zpow_natCast]
    push_cast
    ring
  case neg =>
    right
    refine ⟨?_, by omega⟩
    rw [half_count_mul hp]
    calc (k : ℚ) * 2 ^ j ≤ 2 ^ (g.precision : ℤ) * 2 ^ (e - 1) := by
          gcongr
          · rw [zpow_natCast]
            exact_mod_cast hk
          · exact one_le_two
          · omega
      _ = 2 ^ (e + g.precision - 1) := by
          rw [← zpow_add₀ two_ne_zero]
          congr 1
          ring

-- Rounding does not pass a point.
theorem Rounds.le_point (hp : 0 < g.precision) (h : g.Rounds x m e) (hy : g.Point y)
    (hxy : x ≤ y) : m * 2 ^ e ≤ y := by
  rcases hy.multiple_or_le hp e with ⟨k, rfl⟩ | ⟨hle, he⟩
  · have hm : (m : ℚ) ≤ k := by exact_mod_cast h.le hxy
    gcongr
  · have hm : (m : ℚ) ≤ (2 ^ (g.precision - 1) : ℕ) := by exact_mod_cast h.le (hxy.trans hle)
    have hx := h.normal he
    rw [← half_count_mul hp] at hx
    calc (m : ℚ) * 2 ^ e ≤ (2 ^ (g.precision - 1) : ℕ) * 2 ^ e := by gcongr
      _ ≤ x := hx
      _ ≤ y := hxy

theorem Rounds.point_le (hp : 0 < g.precision) (h : g.Rounds x m e) (hy : g.Point y)
    (hxy : y ≤ x) : y ≤ m * 2 ^ e := by
  rcases hy.multiple_or_le hp e with ⟨k, rfl⟩ | ⟨hle, he⟩
  · have hm : (k : ℚ) ≤ m := by exact_mod_cast h.ge hxy
    gcongr
  · have hm : ((2 ^ (g.precision - 1) : ℕ) : ℚ) ≤ m := by exact_mod_cast h.le_count hp he
    exact hle.trans (by gcongr)

-- The exponent of the unit of the largest numbers.
def highest (g : Grid) : ℤ := g.lowest + 2 ^ g.exponentBits - 3

-- The middle between the largest point and the next power of two.
def limit (g : Grid) : ℚ := (2 ^ g.precision - 1 / 2) * 2 ^ g.highest

theorem lt_limit (hp : 0 < g.precision) (hx : x ≤ 2 ^ g.highest) : x < g.limit := by
  have hhalf : (1 : ℚ) ≤ 2 ^ (g.precision - 1) := one_le_pow₀ one_le_two
  refine hx.trans_lt <| lt_mul_of_one_lt_left (by positivity) ?_
  rw [← mul_pow_sub_one hp.ne']
  linarith

theorem overflows_iff_rank : g.overflows m e ↔
    (2 ^ g.exponentBits - 1) * 2 ^ (g.precision - 1) ≤
      (e - g.lowest).toNat * 2 ^ (g.precision - 1) + m := by
  rw [overflows, decide_eq_true_iff]
  rfl

section

variable (hp : 0 < g.precision) (hb : 2 ≤ g.exponentBits) (h : g.Rounds x m e)
include hp h

theorem Rounds.lt_limit_of_lt (he : e < g.highest) : x < g.limit := by
  have hone : (1 : ℚ) ≤ 2 ^ (g.precision - 1) := one_le_pow₀ one_le_two
  calc x < 2 ^ (e + g.precision) := h.below
    _ ≤ 2 ^ (g.highest + g.precision - 1) := zpow_le_zpow_right₀ one_le_two (by omega)
    _ = (2 ^ (g.precision - 1) : ℕ) * 2 ^ g.highest := (half_count_mul hp _).symm
    _ ≤ g.limit := by
      rw [limit, ← mul_pow_sub_one hp.ne']
      push_cast
      gcongr
      linarith

omit hp in
theorem Rounds.limit_le_of_lt (he : g.highest < e) (hl : g.lowest ≤ g.highest) : g.limit ≤ x := by
  calc g.limit ≤ 2 ^ g.precision * 2 ^ g.highest := by
        rw [limit]
        gcongr
        linarith
    _ = 2 ^ (g.highest + g.precision) := by
      rw [← zpow_natCast, ← zpow_add₀ two_ne_zero, add_comm]
    _ ≤ 2 ^ (e + g.precision - 1) := zpow_le_zpow_right₀ one_le_two (by omega)
    _ ≤ x := h.normal (by omega)

theorem Rounds.limit_le_iff_of_eq (he : e = g.highest) : g.limit ≤ x ↔ 2 ^ g.precision ≤ m := by
  have heven : Even (2 ^ g.precision) := (Nat.even_pow.mpr ⟨even_two, hp.ne'⟩)
  rw [h.nearest.even_le_iff heven, limit, le_div_iff₀ (by positivity), he]
  push_cast
  rfl

include hb

-- A number overflows from the limit on.
theorem Rounds.overflows_iff : g.overflows m e ↔ g.limit ≤ x := by
  obtain ⟨steps, hsteps⟩ : ∃ steps, 2 ^ g.exponentBits = steps + 4 := by
    have hpow : 2 ^ 2 ≤ 2 ^ g.exponentBits := Nat.pow_le_pow_right (by decide) hb
    exact ⟨2 ^ g.exponentBits - 4, by omega⟩
  obtain ⟨d, hd⟩ := Int.le.dest h.lowest
  have htop : g.highest = g.lowest + steps + 1 := by
    have hcast : (2 : ℤ) ^ g.exponentBits = steps + 4 := by exact_mod_cast hsteps
    rw [highest, hcast]
    ring
  have hfull : 2 * 2 ^ (g.precision - 1) = 2 ^ g.precision := mul_pow_sub_one hp.ne' 2
  rw [overflows_iff_rank, hsteps, show (e - g.lowest).toNat = d by omega,
    show steps + 4 - 1 = steps + 3 by omega, Nat.add_mul]
  rcases lt_trichotomy e g.highest with he | he | he
  · have hcount := h.count_le
    have hunits : d * 2 ^ (g.precision - 1) ≤ steps * 2 ^ (g.precision - 1) :=
      Nat.mul_le_mul_right _ (by omega)
    have hpos : 0 < 2 ^ (g.precision - 1) := Nat.two_pow_pos _
    refine iff_of_false ?_ (h.lt_limit_of_lt hp he).not_ge
    omega
  · obtain rfl : d = steps + 1 := by omega
    rw [h.limit_le_iff_of_eq hp he, Nat.add_mul]
    omega
  · have hcount := h.le_count hp (by omega)
    have hunits : (steps + 2) * 2 ^ (g.precision - 1) ≤ d * 2 ^ (g.precision - 1) :=
      Nat.mul_le_mul_right _ (by omega)
    rw [Nat.add_mul] at hunits
    refine iff_of_true ?_ (h.limit_le_of_lt he (by omega))
    omega

end

end Grid
end TreeCodec
