import TreeCodec.Proofs.DecimalNumeral
import TreeCodec.Proofs.IntegerLoad

/-!
Numbers that are loaded as floats.

A number or a numeral in a text is read as a double and narrowed to the type. Whether the number is
out of range is only told from the double, and a double that is infinite already is let through: so
numerals of numbers past the largest double are loaded as infinity, and these are the only ones.
-/
namespace TreeCodec

namespace FloatTy

-- The largest number of the type, and the middle between it and the next power of two.
def largest : FloatTy → ℚ
  | f32 => 2 ^ 128 - 2 ^ 104
  | f64 => 2 ^ 1024 - 2 ^ 971

def limit : FloatTy → ℚ
  | f32 => 2 ^ 128 - 2 ^ 103
  | f64 => 2 ^ 1024 - 2 ^ 970

variable {t : FloatTy}

theorem point_largest (t : FloatTy) : Grid.double.Point t.largest := by
  cases t with
  | f32 => exact Grid.point_ones (a := 24) (n := 104) (by decide) (by decide)
  | f64 => exact Grid.point_ones (a := 53) (n := 971) (by decide) (by decide)

theorem point_limit : Grid.double.Point f32.limit :=
  Grid.point_ones (a := 25) (n := 103) (by decide) (by decide)

theorem largest_lt_limit (t : FloatTy) : t.largest < t.limit := by
  cases t with
  | f32 => exact sub_lt_sub_left (pow_lt_pow_right₀ one_lt_two (by decide)) _
  | f64 => exact sub_lt_sub_left (pow_lt_pow_right₀ one_lt_two (by decide)) _

theorem limit_le (t : FloatTy) : t.limit ≤ f64.limit := by
  cases t with
  | f32 =>
    have hlow : (2 : ℚ) ^ 128 ≤ 2 ^ 970 := pow_le_pow_right₀ one_le_two (by decide)
    have hhigh : (2 : ℚ) ^ 971 ≤ 2 ^ 1024 := pow_le_pow_right₀ one_le_two (by decide)
    calc (2 : ℚ) ^ 128 - 2 ^ 103 ≤ 2 ^ 128 := sub_le_self _ (by positivity)
      _ ≤ 2 ^ 970 := hlow
      _ = 2 ^ 971 - 2 ^ 970 := by rw [pow_succ _ 970, mul_two, add_sub_cancel_right]
      _ ≤ 2 ^ 1024 - 2 ^ 970 := sub_le_sub_right hhigh _
  | f64 => exact le_rfl

theorem isFinite_narrow {x : Double} (h : x.isFinite) :
    (ScalarTy.narrow t x).isFinite ↔ x.magnitude < t.limit := by
  cases t with
  | f32 => rw [limit, ← Grid.limit_single, ← Double.isFinite_toSingle h]; rfl
  | f64 =>
    rw [limit, ← Grid.limit_double]
    exact iff_of_true h (Double.magnitude_lt_limit h)

end FloatTy

-- A tree is a number or a text around a numeral.
inductive Tree.Says : Tree → ℚ → Prop where
  | number {n : Number} {r : ℚ} (h : n.Denotes r) : Says (.number n) r
  | text {s : String} {r : ℚ} (h : Numeral.Spells (Text.trim s.toList) r) : Says (.text s) r

section

variable {t : FloatTy} {tree : Tree} {r : ℚ} {x : Double}

theorem Tree.Says.read (h : tree.Says r) :
    ∃ x s, tree.readScalar .float = .ok (.float x) ∧ Double.Rounded s |r| x := by
  cases h with
  | @number n _ h =>
    cases n with
    | int m =>
      obtain rfl : r = m := h
      exact ⟨_, _, rfl, Double.ofInt_rounded m⟩
    | float x =>
      obtain ⟨hx, rfl⟩ := h
      rw [Double.abs_value]
      exact ⟨x, x.negative, rfl, Double.rounded_self _ hx⟩
  | @text s _ h =>
    obtain ⟨neg, n, e, hdouble, habs⟩ := Numeral.double_eq h
    refine ⟨.ofDecimal neg n e, neg, ?_, ?_⟩
    · simp only [readScalar, readFloat, hdouble]
    · rw [habs]
      exact Double.ofDecimal_rounded neg n e

theorem Load.scalar_float (h : tree.readScalar .float = .ok (.float x)) :
    Load.scalar (.float t) (some tree) =
      if x.isFinite && !(ScalarTy.narrow t x).isFinite then
        Run.fault (.schema (.outOfRange t.name (x.render .message)))
      else pure (.float t (ScalarTy.narrow t x)) := by
  simp only [Load.scalar, Load.required, Run.pure_bind, ScalarTy.kind, h]
  show Run.ofExcept (if x.isFinite && !(ScalarTy.narrow t x).isFinite then _ else _) = _
  split <;> rfl

theorem Load.scalar_float_of_lt (h : tree.readScalar .float = .ok (.float x)) (hx : x.isFinite)
    (hlt : x.magnitude < t.limit) :
    Load.scalar (.float t) (some tree) = pure (.float t (ScalarTy.narrow t x)) := by
  rw [scalar_float h, (FloatTy.isFinite_narrow hx).mpr hlt, Bool.not_true, Bool.and_false]
  rfl

theorem Load.scalar_float_of_le (h : tree.readScalar .float = .ok (.float x)) (hx : x.isFinite)
    (hle : t.limit ≤ x.magnitude) : Load.scalar (.float t) (some tree) =
      Run.fault (.schema (.outOfRange t.name (x.render .message))) := by
  have hn := mt (FloatTy.isFinite_narrow (t := t) hx).mp hle.not_gt
  rw [scalar_float h, hx, Bool.eq_false_of_not_eq_true hn]
  rfl

-- Past the largest double a number is loaded as infinity.
theorem load_infinite (h : tree.Says r) (hr : FloatTy.f64.limit ≤ |r|) :
    ∃ s, Load.scalar (.float t) (some tree) = pure (.float t (.infinity s)) := by
  obtain ⟨x, s, hread, hround⟩ := h.read
  rw [FloatTy.limit, ← Grid.limit_double] at hr
  cases hround with
  | finite hlt => exact absurd hr hlt.not_ge
  | infinite =>
    have hnarrow : ScalarTy.narrow t (.infinity s) = .infinity s := by
      cases t <;> cases s <;> rfl
    refine ⟨s, ?_⟩
    rw [Load.scalar_float hread, hnarrow,
      Bool.eq_false_of_not_eq_true (Double.not_isFinite_infinity s)]
    rfl

-- What the type can hold is loaded.
theorem load_finite (h : tree.Says r) (hr : |r| ≤ t.largest) :
    ∃ x : Double, x.isFinite ∧ Load.scalar (.float t) (some tree) = pure (.float t x) := by
  obtain ⟨x, s, hread, hround⟩ := h.read
  have hlt := hr.trans_lt (t.largest_lt_limit.trans_le t.limit_le)
  rw [FloatTy.limit, ← Grid.limit_double] at hlt
  cases hround with
  | infinite hle => exact absurd hlt hle.not_gt
  | finite _ hx le_point =>
    have hmag := (le_point _ t.point_largest hr).trans_lt t.largest_lt_limit
    exact ⟨_, (FloatTy.isFinite_narrow hx).mpr hmag, Load.scalar_float_of_lt hread hx hmag⟩

end

-- Loading gives a finite float or fails, and of a number that is too large for the type it is told
-- that it is out of range.
structure LoadsInRange (t : FloatTy) (tree : Tree) (r : ℚ) : Prop where
  finite   : (∃ x : Double, x.isFinite ∧
    Load.scalar (.float t) (some tree) = pure (.float t x)) ∨
    ∃ f, Load.scalar (.float t) (some tree) = Run.fault f
  tooLarge : t.limit ≤ |r| → ∃ shown,
    Load.scalar (.float t) (some tree) = Run.fault (.schema (.outOfRange t.name shown))

theorem not_loadsInRange {t : FloatTy} {tree : Tree} {r : ℚ} {s : Bool}
    (hs : Load.scalar (.float t) (some tree) = pure (.float t (.infinity s))) :
    ¬LoadsInRange t tree r := by
  intro h
  rcases h.finite with ⟨x, hx, hpure⟩ | ⟨f, hfault⟩
  · obtain ⟨-, rfl⟩ := Value.float.inj (Run.pure_injective (hs.symm.trans hpure))
    exact Double.not_isFinite_infinity s hx
  · exact nomatch hs.symm.trans hfault

-- What has become a finite double is narrowed or refused.
theorem loadsInRange_of_lt (t : FloatTy) {tree : Tree} {r : ℚ} (h : tree.Says r)
    (hr : |r| < FloatTy.f64.limit) : LoadsInRange t tree r := by
  obtain ⟨x, s, hread, hround⟩ := h.read
  cases hround with
  | infinite hle => exact absurd (hr.trans_eq Grid.limit_double.symm) hle.not_gt
  | finite _ hx _ point_le =>
    have hlarge : t.limit ≤ |r| → t.limit ≤ x.magnitude := fun hle => by
      cases t with
      | f32 => exact point_le _ FloatTy.point_limit hle
      | f64 => exact absurd hr hle.not_gt
    by_cases hmag : x.magnitude < t.limit
    case pos =>
      refine ⟨.inl ⟨_, (FloatTy.isFinite_narrow hx).mpr hmag, ?_⟩, fun hle => ?_⟩
      · exact Load.scalar_float_of_lt hread hx hmag
      · exact absurd hmag (hlarge hle).not_gt
    case neg =>
      have hfail := Load.scalar_float_of_le hread hx (not_lt.mp hmag)
      exact ⟨.inr ⟨_, hfail⟩, fun _ => ⟨_, hfail⟩⟩

-- Numbers are never too large for a double, as their integers have 64 bits.
theorem number_loadsInRange (t : FloatTy) {n : Number} {r : ℚ} (h : n.Denotes r)
    (hn : ∀ k : ℤ, n = .int k → |k| < 2 ^ 64) : LoadsInRange t (.number n) r := by
  refine loadsInRange_of_lt t (.number h) ?_
  rw [FloatTy.limit, ← Grid.limit_double]
  cases n with
  | int k =>
    obtain rfl : r = k := h
    have hk : |(k : ℚ)| ≤ 2 ^ (64 : ℤ) := by exact_mod_cast (hn k rfl).le
    exact Grid.lt_limit (by decide) <| hk.trans (zpow_le_zpow_right₀ one_le_two (by decide))
  | float x =>
    obtain ⟨hx, rfl⟩ := h
    rw [Double.abs_value]
    exact Double.magnitude_lt_limit hx

-- Nothing else goes wrong than that a number past the largest double is let through. In particular
-- nothing is refused that the type can hold.
theorem loadsInRange_iff (t : FloatTy) {tree : Tree} {r : ℚ} (h : tree.Says r) :
    (LoadsInRange t tree r ↔ |r| < 2 ^ 1024 - 2 ^ 970) ∧
      (|r| ≤ t.largest → ∃ x : Double, x.isFinite ∧
        Load.scalar (.float t) (some tree) = pure (.float t x)) := by
  refine ⟨⟨fun hload => ?_, loadsInRange_of_lt t h⟩, load_finite h⟩
  refine not_le.mp fun hr => ?_
  obtain ⟨s, hs⟩ := load_infinite (t := t) h hr
  exact not_loadsInRange hs hload

theorem loadsInRange_iff_tooLarge :
    Tree.Says (.text " 3.5e38 ") (35 * 10 ^ 37) ∧
      LoadsInRange .f32 (.text " 3.5e38 ") (35 * 10 ^ 37) := by
  have hspells : Numeral.Spells (Text.trim " 3.5e38 ".toList) _ :=
    .intro .none (@Numeral.Mantissa.point ['3'] ['5'] (by decide) (by decide) (by decide))
      (@Numeral.Exponent.mark 'e' [] ['3', '8'] 1 (.inl rfl) .none (by decide) (by decide))
  have htree : Tree.Says (.text " 3.5e38 ") (35 * 10 ^ 37) := by
    refine .text ?_
    convert hspells using 1
    rw [show Numeral.natural ['3'] = 3 by rfl, show Numeral.natural ['5'] = 5 by rfl,
      show Numeral.natural ['3', '8'] = 38 by rfl]
    norm_num
  have hlow : |(35 : ℚ) * 10 ^ 37| ≤ 2 ^ (129 : ℤ) := by norm_num
  have hlt : |(35 : ℚ) * 10 ^ 37| < Grid.double.limit :=
    Grid.lt_limit (by decide) <| hlow.trans (zpow_le_zpow_right₀ one_le_two (by decide))
  rw [Grid.limit_double] at hlt
  exact ⟨htree, (loadsInRange_iff .f32 htree).left.mpr hlt⟩

-- The numeral of a number past the largest double is let through.
theorem not_loadsInRange_infinite :
    ¬∀ (t : FloatTy) (tree : Tree) (r : ℚ), tree.Says r → LoadsInRange t tree r := by
  intro h
  have hspells : Numeral.Spells (Text.trim "1e400".toList) _ :=
    .intro .none (@Numeral.Mantissa.whole ['1'] (by decide) (by decide))
      (@Numeral.Exponent.mark 'e' [] ['4', '0', '0'] 1 (.inl rfl) .none (by decide) (by decide))
  have hload : Load.scalar (.float .f64) (some (.text "1e400")) =
      pure (.float .f64 (.infinity false)) := rfl
  exact not_loadsInRange hload (h .f64 _ _ (.text hspells))

end TreeCodec
