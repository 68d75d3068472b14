import TreeCodec.Proofs.Decimal
import TreeCodec.Proofs.DoubleRounding

/-!
Which texts spell a decimal number, and which number.

A decimal numeral is a sign, digits around or before a point, and an exponent; the sign, the point
and the exponent may be missing. Every numeral is read as a double that its number becomes.
-/
namespace TreeCodec.Numeral

def Digits (cs : List Char) : Prop := ∀ c ∈ cs, c.isDigit

instance : DecidablePred Digits := fun _ => decidable_of_iff _ List.all_eq_true

def natural (ds : List Char) : ℕ := Nat.ofDigitChars 10 ds 0

inductive Sign : List Char → ℤ → Prop where
  | none  : Sign [] 1
  | plus  : Sign ['+'] 1
  | minus : Sign ['-'] (-1)

inductive Mantissa : List Char → ℚ → Prop where
  | whole {ds : List Char} (hd : Digits ds) (hne : ds ≠ []) : Mantissa ds (natural ds)
  | point {ds fs : List Char} (hd : Digits ds) (hf : Digits fs) (hne : ds ++ fs ≠ []) :
    Mantissa (ds ++ '.' :: fs) (natural ds + natural fs / 10 ^ fs.length)

inductive Exponent : List Char → ℤ → Prop where
  | none : Exponent [] 0
  | mark {c : Char} {s ds : List Char} {i : ℤ} (hc : c = 'e' ∨ c = 'E') (hs : Sign s i)
      (hd : Digits ds) (hne : ds ≠ []) : Exponent (c :: (s ++ ds)) (i * natural ds)

-- A text is a numeral of a rational.
inductive Spells : List Char → ℚ → Prop where
  | intro {s m x : List Char} {i k : ℤ} {a : ℚ} (hs : Sign s i) (hm : Mantissa m a)
      (hx : Exponent x k) : Spells (s ++ m ++ x) (i * a * 10 ^ k)

theorem spelled_from {ds : List Char} (hd : Digits ds) (n : ℕ) :
    ds.foldl (fun n c => n * 10 + (digit? c).getD 0) n = Nat.ofDigitChars 10 ds n := by
  induction ds generalizing n with
  | nil => rfl
  | cons d ds ih =>
    rw [List.foldl_cons, digit?_of_isDigit (hd d (List.mem_cons_self ..)), Nat.ofDigitChars_cons,
      ih fun c hc => hd c (List.mem_cons_of_mem _ hc), Nat.mul_comm]
    rfl

theorem spelled_eq {ds : List Char} (hd : Digits ds) : spelled ds = natural ds :=
  spelled_from hd 0

theorem ofDigitChars_shift (fs : List Char) (n : ℕ) :
    Nat.ofDigitChars 10 fs n = n * 10 ^ fs.length + natural fs := by
  induction fs generalizing n with
  | nil => simp [natural]
  | cons f fs ih =>
    rw [natural, Nat.ofDigitChars_cons, Nat.ofDigitChars_cons, ih, ih (10 * 0 + _),
      List.length_cons]
    ring

theorem natural_append (ds fs : List Char) :
    natural (ds ++ fs) = natural ds * 10 ^ fs.length + natural fs := by
  rw [← ofDigitChars_shift, natural, natural, Nat.ofDigitChars_append]

theorem Sign.abs_eq {s : List Char} {i : ℤ} (hs : Sign s i) : |(i : ℚ)| = 1 := by
  cases hs <;> simp

theorem Mantissa.nonneg {m : List Char} {a : ℚ} (hm : Mantissa m a) : 0 ≤ a := by
  cases hm <;> positivity

-- The characters that a mantissa starts with.
theorem Mantissa.head {m : List Char} {a : ℚ} (hm : Mantissa m a) :
    ∃ c cs, m = c :: cs ∧ (c.isDigit ∨ c = '.') := by
  cases hm with
  | whole hd hne =>
    obtain ⟨c, cs, rfl⟩ := List.exists_cons_of_ne_nil hne
    exact ⟨c, cs, rfl, .inl (hd c (List.mem_cons_self ..))⟩
  | @point ds fs hd hf hne =>
    cases ds with
    | nil => exact ⟨'.', fs, rfl, .inr rfl⟩
    | cons c ds => exact ⟨c, _, rfl, .inl (hd c (List.mem_cons_self ..))⟩

theorem Exponent.head {x : List Char} {k : ℤ} (hx : Exponent x k) :
    ∀ c ∈ x.head?, c.isDigit = false ∧ c ≠ '.' := by
  cases hx with
  | none => nofun
  | mark hc => rcases hc with rfl | rfl <;> simp

theorem sign_append {s t : List Char} {i : ℤ} (hs : Sign s i)
    (ht : ∀ c ∈ t.head?, c ≠ '+' ∧ c ≠ '-') : sign (s ++ t) = (decide (i < 0), t) := by
  cases hs with
  | none =>
    unfold sign
    split <;> simp_all
  | plus => rfl
  | minus => rfl

theorem exponent?_eq {x : List Char} {k : ℤ} (hx : Exponent x k) : exponent? x = some k := by
  cases hx with
  | none => rfl
  | @mark c s ds i hc hs hd hne =>
    have hhead : ∀ c ∈ ds.head?, c ≠ '+' ∧ c ≠ '-' := by
      intro c hc
      have hdigit := hd c (List.mem_of_head? hc)
      constructor <;> rintro rfl <;> exact absurd hdigit (by decide)
    rw [exponent?, if_pos hc, sign_append hs hhead]
    have hall : ds.all Char.isDigit := List.all_eq_true.mpr hd
    simp only [List.isEmpty_iff, hne, hall, spelled_eq hd]
    cases hs <;> simp

section

variable {ds cs : List Char} (hd : Digits ds) (hc : ∀ c ∈ cs.head?, c.isDigit = false)
include hd hc

theorem takeWhile_digits : (ds ++ cs).takeWhile Char.isDigit = ds := by
  rw [List.takeWhile_append_of_pos hd]
  cases cs with
  | nil => simp
  | cons c cs => simp [hc c rfl]

theorem dropWhile_digits : (ds ++ cs).dropWhile Char.isDigit = cs := by
  rw [List.dropWhile_append_of_pos hd]
  cases cs with
  | nil => rfl
  | cons c cs => simp [hc c rfl]

end

-- The digits and the exponent that are read give the number.
theorem decimal?_append {m x : List Char} {a : ℚ} {k : ℤ} (hm : Mantissa m a)
    (hx : Exponent x k) :
    ∃ n e, decimal? (m ++ x) = some (n, e) ∧ (n : ℚ) * 10 ^ e = a * 10 ^ k := by
  have hdigit := fun c hc => (hx.head c hc).left
  cases hm with
  | whole hd hne =>
    refine ⟨natural m, k, ?_, rfl⟩
    simp only [decimal?, takeWhile_digits hd hdigit, dropWhile_digits hd hdigit]
    split
    case h_1 => exact absurd rfl (hx.head '.' rfl).right
    case h_2 => simp [hne, exponent?_eq hx, spelled_eq hd]
  | @point ds fs hd hf hne =>
    refine ⟨natural (ds ++ fs), k - fs.length, ?_, ?_⟩
    · have hpoint : ∀ c ∈ ('.' :: (fs ++ x)).head?, c.isDigit = false := by simp
      have hall : Digits (ds ++ fs) := fun c hc => (List.mem_append.mp hc).elim (hd c) (hf c)
      rw [List.append_assoc, List.cons_append]
      simp only [decimal?, takeWhile_digits hd hpoint, dropWhile_digits hd hpoint,
        takeWhile_digits hf hdigit, dropWhile_digits hf hdigit, exponent?_eq hx, Option.map_some,
        spelled_eq hall]
      rw [if_neg]
      simpa using hne
    · rw [natural_append, zpow_sub₀ (by norm_num), zpow_natCast]
      push_cast
      field_simp

theorem toLower_head {c : Char} (h : c.isDigit ∨ c = '.') : c.toLower = c := by
  rcases h with h | rfl
  · have hle : c.val ≤ '9'.val := by simp_all [Char.isDigit]
    refine dif_neg fun hupper => ?_
    exact absurd (UInt32.le_trans hupper.left hle) (by decide)
  · rfl

-- No mantissa starts as one of the words for a double that is not finite.
theorem word_ne {c : Char} (cs : List Char) (h : c.isDigit ∨ c = '.') {word : String}
    (hword : word.toList.head? = some 'i' ∨ word.toList.head? = some 'n') :
    String.ofList ((c :: cs).map Char.toLower) ≠ word := by
  rintro rfl
  rw [String.toList_ofList, List.map_cons, List.head?_cons, toLower_head h] at hword
  simp only [Option.some.injEq] at hword
  rcases hword with rfl | rfl <;> revert h <;> decide

-- Every numeral is read, as a double that its number becomes.
theorem double_eq {cs : List Char} {r : ℚ} (h : Spells cs r) :
    ∃ s n e, double cs = .ok (.ofDecimal s n e) ∧ |r| = n * 10 ^ e := by
  cases h with
  | @intro s m x i k a hs hm hx =>
    obtain ⟨n, e, hdecimal, hvalue⟩ := decimal?_append hm hx
    obtain ⟨c, t, hmx, hc⟩ : ∃ c t, m ++ x = c :: t ∧ (c.isDigit ∨ c = '.') := by
      obtain ⟨c, t, rfl, hc⟩ := hm.head
      exact ⟨c, t ++ x, rfl, hc⟩
    have hsign : sign (s ++ (c :: t)) = (decide (i < 0), c :: t) := by
      refine sign_append hs fun d hd => ?_
      obtain rfl : c = d := by simpa using hd
      constructor <;> rintro rfl <;> revert hc <;> decide
    refine ⟨decide (i < 0), n, e, ?_, ?_⟩
    · rw [List.append_assoc, hmx]
      unfold double
      split
      case h_1 heq => simp at heq
      case h_2 =>
        rw [hmx] at hdecimal
        simp only [hsign, hdecimal]
        rw [if_neg, if_neg]
        · exact word_ne t hc (.inr rfl)
        · rintro (h | h)
          · exact word_ne t hc (.inl rfl) h
          · exact word_ne t hc (.inl rfl) h
    · rw [hvalue, abs_mul, abs_mul, hs.abs_eq, one_mul, abs_of_nonneg hm.nonneg,
        abs_of_pos (by positivity)]

end TreeCodec.Numeral
