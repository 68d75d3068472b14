import TreeCodec.Proofs.DoubleValue
import TreeCodec.Proofs.ScalarTrip

/-!
Numbers that are loaded as integers.

A number is loaded as an integer type exactly if what it denotes is an integer of the type, and the
integer is loaded as it is: nothing wraps around, nothing is cut off and nothing is rounded. Reading
knows only two ranges, the ones of 64 bits with a sign and without, and every type is within the one
that its numbers are read with.
-/
namespace TreeCodec

-- The rational that a number stands for. There is none for a double that is not finite.
def Number.Denotes : Number → ℚ → Prop
  | int n, r => r = n
  | float x, r => x.isFinite ∧ x.value = r

theorem Number.Denotes.unique {n : Number} {q r : ℚ} (hq : n.Denotes q) (hr : n.Denotes r) :
    q = r := by
  cases n with
  | int m => exact hq.trans hr.symm
  | float x => exact hq.right.symm.trans hr.right

-- The integers of so many bits, in two's complement if there is a sign.
def IntTy.InRange (i : IntTy) (k : ℤ) : Prop :=
  if i.isSigned then -2 ^ (i.width - 1) ≤ k ∧ k < 2 ^ (i.width - 1) else 0 ≤ k ∧ k < 2 ^ i.width

theorem IntTy.holds_iff {i : IntTy} {k : ℤ} : i.holds k ↔ i.InRange k := by
  unfold holds least greatest InRange
  split <;> simp only [Nat.pow_eq, Nat.cast_pow, Nat.cast_ofNat, Bool.and_eq_true,
    decide_eq_true_eq, Int.le_sub_one_iff]

namespace Tree

open Integer

variable {n : Number} {s : Scalar} {k : ℤ}

theorem denotes_of_readInt (h : (number n).readInt = .ok s) :
    ∃ k : ℤ, n.Denotes k ∧ s = .int k := by
  cases n with
  | int m =>
    simp only [readInt] at h
    split at h <;> cases h
    exact ⟨m, rfl, rfl⟩
  | float x =>
    simp only [readInt] at h
    cases hx : x.toInt? with
    | none => simp [hx] at h
    | some m =>
      simp only [hx] at h
      split at h <;> cases h
      exact ⟨m, Double.toInt?_eq_some_iff.mp hx, rfl⟩

theorem denotes_of_readUInt (h : (number n).readUInt = .ok s) :
    ∃ k : ℕ, n.Denotes (k : ℤ) ∧ s = .uint k := by
  cases n with
  | int m =>
    simp only [readUInt] at h
    split at h <;> cases h
    exact ⟨m.toNat, by simp [Number.Denotes, *], rfl⟩
  | float x =>
    simp only [readUInt] at h
    cases hx : x.toInt? with
    | none => simp [hx] at h
    | some m =>
      simp only [hx] at h
      split at h
      case isTrue hm =>
        cases h
        refine ⟨m.toNat, ?_, rfl⟩
        rw [Int.toNat_of_nonneg hm.left]
        exact Double.toInt?_eq_some_iff.mp hx
      case isFalse => cases h

theorem readInt_of_denotes (h : n.Denotes k) (hl : least64 ≤ k) (hg : k ≤ greatest64) :
    (number n).readInt = .ok (.int k) := by
  cases n with
  | int m =>
    obtain rfl : k = m := Int.cast_injective h
    exact if_pos hg
  | float x => simp [readInt, Double.toInt?_eq_some_iff.mpr h, hl, hg]

theorem readUInt_of_denotes (h : n.Denotes k) (hl : 0 ≤ k) (hg : k ≤ greatestUnsigned64) :
    (number n).readUInt = .ok (.uint k.toNat) := by
  cases n with
  | int m =>
    obtain rfl : k = m := Int.cast_injective h
    exact if_pos hl
  | float x => simp [readUInt, Double.toInt?_eq_some_iff.mpr h, hl, hg]

end Tree

section

variable {i : IntTy} {n : Number} {s : Scalar} {k : ℤ}

theorem ScalarTy.ofScalar_int_eq_ok {v : Value} :
    (int i).ofScalar (.int k) = .ok v ↔ i.InRange k ∧ v = .int i k := by
  rw [← IntTy.holds_iff]
  show (if i.holds k then _ else _) = _ ↔ _
  split <;> simp [*, eq_comm]

-- What is read is an integer that the number denotes, and stays this integer.
theorem denotes_of_read (h : (Tree.number n).readScalar (ScalarTy.int i).kind = .ok s) :
    ∃ k : ℤ, n.Denotes k ∧
      ∀ v, (ScalarTy.int i).ofScalar s = .ok v ↔ i.InRange k ∧ v = .int i k := by
  cases hi : i.isSigned with
  | true =>
    simp only [ScalarTy.kind, hi, if_true] at h
    obtain ⟨k, hk, rfl⟩ := Tree.denotes_of_readInt h
    exact ⟨k, hk, fun _ => ScalarTy.ofScalar_int_eq_ok⟩
  | false =>
    simp only [ScalarTy.kind, hi, Bool.false_eq_true, if_false] at h
    obtain ⟨k, hk, rfl⟩ := Tree.denotes_of_readUInt h
    exact ⟨k, hk, fun _ => ScalarTy.ofScalar_int_eq_ok⟩

-- No integer of the type is outside the range of 64 bits that its numbers are read with.
theorem read_of_denotes (h : n.Denotes k) (hk : i.InRange k) :
    ∃ s, (Tree.number n).readScalar (ScalarTy.int i).kind = .ok s := by
  rw [← IntTy.holds_iff] at hk
  cases hi : i.isSigned with
  | true =>
    obtain ⟨hl, hg⟩ := IntTy.bounds_of_signed hi hk
    simp only [ScalarTy.kind, hi, if_true]
    exact ⟨_, Tree.readInt_of_denotes h hl hg⟩
  | false =>
    obtain ⟨hl, hg⟩ := IntTy.bounds_of_unsigned (by simp [hi]) hk
    simp only [ScalarTy.kind, hi, Bool.false_eq_true, if_false]
    exact ⟨_, Tree.readUInt_of_denotes h hl hg⟩

end

-- Integers are loaded exactly or not at all.
theorem integers_load_exactly (i : IntTy) (n : Number) (v : Value) :
    (∃ s, (Tree.number n).readScalar (ScalarTy.int i).kind = .ok s ∧
      (ScalarTy.int i).ofScalar s = .ok v) ↔
    ∃ k : ℤ, i.InRange k ∧ n.Denotes k ∧ v = .int i k := by
  constructor
  · rintro ⟨s, hs, hv⟩
    obtain ⟨k, hk, hfit⟩ := denotes_of_read hs
    obtain ⟨hrange, hval⟩ := (hfit v).mp hv
    exact ⟨k, hrange, hk, hval⟩
  · rintro ⟨k, hrange, hk, hval⟩
    obtain ⟨s, hs⟩ := read_of_denotes hk hrange
    obtain ⟨l, hl, hfit⟩ := denotes_of_read hs
    obtain rfl : k = l := Int.cast_injective (hk.unique hl)
    exact ⟨s, hs, (hfit v).mpr ⟨hrange, hval⟩⟩

-- The double `2 ^ 63` is an integer with one bit too many for a sign.
example : ((Tree.number (.float ⟨0x43e0000000000000⟩)).readScalar .int).toOption = none ∧
    ((Tree.number (.float ⟨0x43e0000000000000⟩)).readScalar .uint).toOption =
      some (.uint (2 ^ 63)) := by
  decide

end TreeCodec
