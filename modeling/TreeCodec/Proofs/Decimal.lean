import TreeCodec.Convert.Scalar

/-!
Integers that are written in decimal are read back as they were.
-/
namespace TreeCodec

theorem digit?_of_isDigit {c : Char} (h : c.isDigit) :
    digit? c = some (c.toNat - '0'.toNat) := by
  simp [digit?, h]

theorem isBlank_of_isDigit {c : Char} (h : c.isDigit) : Text.isBlank c = false := by
  refine Bool.eq_false_iff.mpr fun hb => ?_
  have hn : (Text.blanks.all fun c => !c.isDigit) = true := rfl
  simpa [h] using List.all_eq_true.mp hn c (List.contains_iff_mem.mp hb)

namespace Text

section

variable {bs cs ds : List Char} (hb : ∀ c ∈ bs, isBlank c)
include hb

theorem dropWhile_blanks (h : ∀ c ∈ cs.head?, isBlank c = false) :
    (bs ++ cs).dropWhile isBlank = cs := by
  rw [List.dropWhile_append_of_pos hb]
  cases cs with
  | nil => rfl
  | cons c cs => exact List.dropWhile_cons_of_neg (by simp [h c rfl])

-- Blanks around a text without blanks are dropped, and nothing else.
theorem trim_blanks (hd : ∀ c ∈ ds, isBlank c) (hne : cs ≠ []) (h : ∀ c ∈ cs, isBlank c = false) :
    trim (bs ++ cs ++ ds) = cs := by
  have hfront : (bs ++ (cs ++ ds)).dropWhile isBlank = cs ++ ds := by
    obtain ⟨c, cs, rfl⟩ := List.exists_cons_of_ne_nil hne
    refine dropWhile_blanks hb fun d hd => ?_
    cases hd
    exact h c (List.mem_cons_self ..)
  have hback : (ds.reverse ++ cs.reverse).dropWhile isBlank = cs.reverse :=
    dropWhile_blanks (fun c hc => hd c (List.mem_reverse.mp hc)) fun c hc =>
      h c (List.mem_reverse.mp (List.mem_of_head? hc))
  rw [trim, List.append_assoc, hfront, List.reverse_append, hback, List.reverse_reverse]

end

-- A text without blanks is not trimmed.
theorem trim_eq_self {cs : List Char} (h : ∀ c ∈ cs, isBlank c = false) : trim cs = cs := by
  by_cases hne : cs = []
  case pos =>
    subst hne
    rfl
  case neg =>
    have hnone : ∀ c ∈ [], isBlank c := nofun
    simpa using trim_blanks hnone hnone hne h

end Text

namespace Numeral

theorem le_ofDigitChars (n : Nat) (cs : List Char) : n ≤ Nat.ofDigitChars 10 cs n := by
  induction cs generalizing n with
  | nil => exact Nat.le_refl n
  | cons c cs ih =>
    rw [Nat.ofDigitChars_cons]
    exact Nat.le_trans (by omega) (ih _)

-- Digits are read as the number that they spell, if that is within the limit.
theorem digits_eq_ok {limit : Nat} {past : IntegerFault} {cs : List Char} {n : Nat}
    (hd : ∀ c ∈ cs, c.isDigit) (hn : Nat.ofDigitChars 10 cs n ≤ limit) :
    digits limit past n cs = .ok (Nat.ofDigitChars 10 cs n) := by
  induction cs generalizing n with
  | nil => rfl
  | cons c cs ih =>
    rw [Nat.ofDigitChars_cons, Nat.mul_comm] at hn ⊢
    have hle := Nat.le_trans (le_ofDigitChars _ cs) hn
    rw [digits, digit?_of_isDigit (hd c (List.mem_cons_self ..))]
    simp only
    rw [if_neg (Nat.not_lt.mpr hle)]
    exact ih (fun c hc => hd c (List.mem_cons_of_mem _ hc)) hn

theorem isDigit_toDigits (n : Nat) : ∀ c ∈ Nat.toDigits 10 n, c.isDigit := fun _ hc =>
  Nat.isDigit_of_mem_toDigits (by decide) (by decide) hc

theorem magnitude_toDigits {limit n : Nat} (past : IntegerFault) (h : n ≤ limit) :
    magnitude limit past (Nat.toDigits 10 n) = .ok n := by
  have hok : digits limit past 0 (Nat.toDigits 10 n) = .ok n := by
    rw [digits_eq_ok (isDigit_toDigits n) (by rwa [Nat.ofDigitChars_ten_toDigits]),
      Nat.ofDigitChars_ten_toDigits]
  cases hc : Nat.toDigits 10 n with
  | nil => exact absurd hc Nat.toDigits_ne_nil
  | cons c cs => rwa [hc] at hok

theorem toList_toString_ofNat (n : Nat) :
    (toString (Int.ofNat n)).toList = Nat.toDigits 10 n :=
  Nat.toList_repr

theorem toList_toString_negSucc (n : Nat) :
    (toString (Int.negSucc n)).toList = '-' :: Nat.toDigits 10 (n + 1) := by
  show ("-" ++ Nat.repr (n + 1)).toList = _
  rw [String.toList_append, Nat.toList_repr]
  rfl

theorem isBlank_toString (n : Int) : ∀ c ∈ (toString n).toList, Text.isBlank c = false := by
  intro c hc
  cases n with
  | ofNat n =>
    rw [toList_toString_ofNat] at hc
    exact isBlank_of_isDigit (isDigit_toDigits n c hc)
  | negSucc n =>
    rw [toList_toString_negSucc] at hc
    rcases List.mem_cons.mp hc with rfl | hc
    · decide
    · exact isBlank_of_isDigit (isDigit_toDigits (n + 1) c hc)

theorem trim_toString (n : Int) : Text.trim (toString n).toList = (toString n).toList :=
  Text.trim_eq_self (isBlank_toString n)

-- An integer is read back within every range that it is in.
theorem integer_toString {least : Int} (greatest : Nat) {n : Int} (hl : least ≤ n)
    (hg : n ≤ greatest) : integer least greatest (toString n).toList = .ok n := by
  cases n with
  | ofNat n =>
    have hm := magnitude_toDigits .tooLarge (Int.ofNat_le.mp hg)
    have hdigit := isDigit_toDigits n
    rw [toList_toString_ofNat]
    generalize Nat.toDigits 10 n = cs at hm hdigit
    unfold integer
    split
    · simp [magnitude] at hm
    · exact absurd (hdigit '+' (List.mem_cons_self ..)) (by decide)
    · exact absurd (hdigit '-' (List.mem_cons_self ..)) (by decide)
    · rw [hm]
      rfl
  | negSucc n =>
    have hle : n + 1 ≤ (-least).toNat := by omega
    rw [toList_toString_negSucc, integer, if_pos (by omega), magnitude_toDigits .tooSmall hle]
    rfl

end Numeral
end TreeCodec
