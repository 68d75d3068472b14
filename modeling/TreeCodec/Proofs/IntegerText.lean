import Mathlib.Algebra.Group.Int.Defs
import TreeCodec.Proofs.Decimal

/-!
Integers in texts and as numbers.

A text that spells an integer in decimal, with blanks around it or not, is read as the number is:
both give the same scalar, or neither gives one. The signs that are allowed in a text differ by the
kind of the scalar, and so do the ranges of numbers; they refuse the same integers.
-/
namespace TreeCodec

/-! ## Numerals -/

namespace Numeral

theorem ofDigitChars_of_digits {limit n m : Nat} {past : IntegerFault} {cs : List Char}
    (h : digits limit past n cs = .ok m) : Nat.ofDigitChars 10 cs n = m := by
  fun_induction digits limit past n cs with
  | case1 n => exact Except.ok.inj h
  | case2 => cases h
  | case3 => cases h
  | case4 n c cs d hd hlt ih =>
    unfold digit? at hd
    split at hd
    case isTrue =>
      cases hd
      rw [Nat.ofDigitChars_cons, Nat.mul_comm]
      exact ih h
    case isFalse => cases hd

-- The digits of a number are read exactly if it is within the limit.
theorem magnitude_toDigits_iff {limit n m : Nat} {past : IntegerFault} :
    magnitude limit past (Nat.toDigits 10 n) = .ok m ↔ m = n ∧ n ≤ limit := by
  constructor
  case mp =>
    intro h
    have hle := magnitude_le h
    have hdigits : digits limit past 0 (Nat.toDigits 10 n) = .ok m := by
      cases hc : Nat.toDigits 10 n with
      | nil => exact absurd hc Nat.toDigits_ne_nil
      | cons c cs => rwa [hc] at h
    have hm := ofDigitChars_of_digits hdigits
    rw [Nat.ofDigitChars_ten_toDigits] at hm
    exact ⟨hm.symm, hm ▸ hle⟩
  case mpr =>
    rintro ⟨rfl, h⟩
    exact magnitude_toDigits past h

-- What is written in decimal is read exactly if it is in the range.
theorem integer_toString_iff {least n m : Int} {greatest : Nat} (h0 : least ≤ 0) :
    integer least greatest (toString n).toList = .ok m ↔ m = n ∧ least ≤ n ∧ n ≤ greatest := by
  constructor
  case mp =>
    intro h
    cases n with
    | ofNat n =>
      rw [toList_toString_ofNat] at h
      unfold integer at h
      have hsign {c : Char} {cs : List Char} (hc : Nat.toDigits 10 n = c :: cs) : c.isDigit :=
        isDigit_toDigits n c (hc ▸ List.mem_cons_self ..)
      split at h
      case h_1 hc => exact absurd hc Nat.toDigits_ne_nil
      case h_2 hc => exact absurd (hsign hc) (by decide)
      case h_3 hc => exact absurd (hsign hc) (by decide)
      case h_4 =>
        cases hk : magnitude greatest .tooLarge (Nat.toDigits 10 n) with
        | error e =>
          rw [hk] at h
          cases h
        | ok k =>
          rw [hk] at h
          obtain ⟨rfl, hle⟩ := magnitude_toDigits_iff.mp hk
          cases h
          exact ⟨rfl, Int.le_trans h0 (Int.natCast_nonneg k), Int.ofNat_le.mpr hle⟩
    | negSucc n =>
      rw [toList_toString_negSucc, integer] at h
      split at h
      case isFalse => cases h
      case isTrue hneg =>
        cases hk : magnitude (-least).toNat .tooSmall (Nat.toDigits 10 (n + 1)) with
        | error e =>
          rw [hk] at h
          cases h
        | ok k =>
          rw [hk] at h
          obtain ⟨rfl, hle⟩ := magnitude_toDigits_iff.mp hk
          cases h
          exact ⟨rfl, by omega, by omega⟩
  case mpr =>
    rintro ⟨rfl, hl, hg⟩
    exact integer_toString greatest hl hg

end Numeral

/-! ## Trees -/

namespace Tree

open Integer

variable {n : Int} {s : Scalar} {w₁ w₂ : String} {k : ScalarKind}

theorem readInt_number_iff :
    (number (.int n)).readInt = .ok s ↔ s = .int n ∧ n ≤ greatest64 := by
  simp only [readInt]
  split <;> simp [*, eq_comm]

theorem readUInt_number_iff :
    (number (.int n)).readUInt = .ok s ↔ s = .uint n.toNat ∧ 0 ≤ n := by
  simp only [readUInt]
  split <;> simp [*, eq_comm]

section

variable (h₁ : ∀ c ∈ w₁.toList, Text.isBlank c) (h₂ : ∀ c ∈ w₂.toList, Text.isBlank c)
include h₁ h₂

theorem trim_numeral (n : Int) :
    Text.trim (w₁ ++ toString n ++ w₂).toList = (toString n).toList := by
  have hne : (toString n).toList ≠ [] := by
    cases n with
    | ofNat n =>
      rw [Numeral.toList_toString_ofNat]
      exact Nat.toDigits_ne_nil
    | negSucc n =>
      rw [Numeral.toList_toString_negSucc]
      nofun
  rw [String.toList_append, String.toList_append]
  exact Text.trim_blanks h₁ h₂ hne (Numeral.isBlank_toString n)

-- A text is read as an integer of a range, whatever is made of the integer.
theorem read_numeral_iff {least greatest : Int} (hl : least ≤ 0) (hg : 0 ≤ greatest)
    (give : Int → Scalar) (fault : IntegerFault → Fault) :
    (match Numeral.integer least greatest.toNat (Text.trim (w₁ ++ toString n ++ w₂).toList) with
      | .ok m => .ok (give m)
      | .error e => .error (fault e)) = (.ok s : Except Fault Scalar) ↔
    s = give n ∧ least ≤ n ∧ n ≤ greatest := by
  have hread (m : Int) : Numeral.integer least greatest.toNat (toString n).toList = .ok m ↔
      m = n ∧ least ≤ n ∧ n ≤ greatest.toNat :=
    Numeral.integer_toString_iff hl
  rw [Int.toNat_of_nonneg hg] at hread
  rw [trim_numeral h₁ h₂]
  split
  case h_1 m hm =>
    obtain ⟨rfl, hrange⟩ := (hread m).mp hm
    simp [hrange, eq_comm]
  case h_2 e he =>
    refine iff_of_false nofun fun ⟨_, hrange⟩ => ?_
    nomatch he.symm.trans ((hread n).mpr ⟨rfl, hrange⟩)

theorem readInt_text_iff : (text (w₁ ++ toString n ++ w₂)).readInt = .ok s ↔
    s = .int n ∧ least64 ≤ n ∧ n ≤ greatest64 :=
  read_numeral_iff h₁ h₂ (by decide) (by decide) .int _

theorem readUInt_text_iff : (text (w₁ ++ toString n ++ w₂)).readUInt = .ok s ↔
    s = .uint n.toNat ∧ 0 ≤ n ∧ n ≤ greatestUnsigned64 :=
  read_numeral_iff h₁ h₂ (by decide) (by decide) (.uint ·.toNat) _

end

-- Two results of which one is a success exactly if the other is, and then with the same scalar.
theorem same_or_errors {x y : Except Fault Scalar} (h : ∀ s, x = .ok s ↔ y = .ok s) :
    (∃ s, x = .ok s ∧ y = .ok s) ∨ (∃ e, x = .error e) ∧ ∃ e, y = .error e := by
  cases x with
  | ok s => exact .inl ⟨s, rfl, (h s).mp rfl⟩
  | error e =>
    cases y with
    | ok s => nomatch (h s).mpr rfl
    | error e' => exact .inr ⟨⟨e, rfl⟩, e', rfl⟩

-- The integers of 64 bits, with a sign or without, are read from texts as they are from numbers.
theorem text_reads_as_number (hl : -2 ^ 63 ≤ n) (hg : n < 2 ^ 64)
    (h₁ : ∀ c ∈ w₁.toList, Text.isBlank c) (h₂ : ∀ c ∈ w₂.toList, Text.isBlank c)
    (hk : k = .int ∨ k = .uint) :
    (∃ s, (text (w₁ ++ toString n ++ w₂)).readScalar k = .ok s ∧
      (number (.int n)).readScalar k = .ok s) ∨
    (∃ e, (text (w₁ ++ toString n ++ w₂)).readScalar k = .error e) ∧
      ∃ e, (number (.int n)).readScalar k = .error e := by
  refine same_or_errors fun s => ?_
  rcases hk with rfl | rfl
  · have hleast : least64 ≤ n := hl
    simp only [readScalar]
    rw [readInt_text_iff h₁ h₂, readInt_number_iff, and_iff_right hleast]
  · have hgreatest : n ≤ greatestUnsigned64 := Int.le_sub_one_of_lt hg
    simp only [readScalar]
    rw [readUInt_text_iff h₁ h₂, readUInt_number_iff, and_iff_left hgreatest]

-- The number past the largest one with a sign, between an ideographic space and a line feed.
theorem text_reads_as_number_limit :
    (-2 ^ 63 ≤ (2 ^ 63 : Int) ∧ (2 ^ 63 : Int) < 2 ^ 64) ∧
    (∀ c ∈ "\u3000".toList, Text.isBlank c) ∧ (∀ c ∈ "\n".toList, Text.isBlank c) ∧
    ((∃ s, (text ("\u3000" ++ toString (2 ^ 63 : Int) ++ "\n")).readScalar .uint = .ok s ∧
        (number (.int (2 ^ 63))).readScalar .uint = .ok s) ∨
      (∃ e, (text ("\u3000" ++ toString (2 ^ 63 : Int) ++ "\n")).readScalar .uint = .error e) ∧
        ∃ e, (number (.int (2 ^ 63))).readScalar .uint = .error e) := by
  have h₁ : ∀ c ∈ "\u3000".toList, Text.isBlank c := List.all_eq_true.mp (by decide)
  have h₂ : ∀ c ∈ "\n".toList, Text.isBlank c := List.all_eq_true.mp (by decide)
  exact ⟨by decide, h₁, h₂, text_reads_as_number (by decide) (by decide) h₁ h₂ (.inr rfl)⟩

end Tree
end TreeCodec
