import Mathlib.Data.Nat.Digits.Lemmas
import TreeCodec.Store.Hash

/-!
Hashes of byte strings.

The state is rotated by one byte before each byte, which is then put over its low end. So after `n`
bytes the state is rotated by `n` bytes, and each byte by as many bytes as came after it. A ninth
byte is put over the first one. As long as there are no more than eight, none is put over another:
the hash from zero is the number that the bytes spell.
-/
namespace TreeCodec.Hash

section Rotation

variable (x y : BitVec 64) (m n : Nat)

-- A rotation reads every bit from one place, also where it wraps around.
theorem getLsbD_rotateLeft {i : Nat} (h : i < 64) :
    (x.rotateLeft n).getLsbD i = x.getLsbD ((i + 64 - n % 64) % 64) := by
  rw [BitVec.getLsbD_rotateLeft]
  by_cases hi : i < n % 64
  case pos =>
    have hp : 64 - n % 64 + i = (i + 64 - n % 64) % 64 := by omega
    simp [hi, hp]
  case neg =>
    have hp : i - n % 64 = (i + 64 - n % 64) % 64 := by omega
    simp [hi, h, hp]

theorem rotateLeft_rotateLeft : (x.rotateLeft m).rotateLeft n = x.rotateLeft (m + n) := by
  refine BitVec.eq_of_getLsbD_eq fun i hi => ?_
  rw [getLsbD_rotateLeft _ _ hi, getLsbD_rotateLeft _ _ (by omega), getLsbD_rotateLeft _ _ hi]
  congr 1
  omega

theorem rotateLeft_xor : (x ^^^ y).rotateLeft n = x.rotateLeft n ^^^ y.rotateLeft n := by
  refine BitVec.eq_of_getLsbD_eq fun i hi => ?_
  simp only [BitVec.getLsbD_xor, getLsbD_rotateLeft _ _ hi]

theorem rotateLeft_zero : x.rotateLeft 0 = x := by
  refine BitVec.eq_of_getLsbD_eq fun i hi => ?_
  rw [getLsbD_rotateLeft _ _ hi]
  congr 1
  omega

theorem zero_rotateLeft : (0#64).rotateLeft n = 0#64 := by
  refine BitVec.eq_of_getLsbD_eq fun i hi => ?_
  rw [getLsbD_rotateLeft _ _ hi]
  simp

end Rotation

theorem toBitVec_foldByte (state : UInt64) (byte : UInt8) :
    (foldByte state byte).toBitVec = state.toBitVec.rotateLeft 8 ^^^ byte.toUInt64.toBitVec :=
  rfl

-- A byte fits in a word at each of the eight places, so a rotation by whole bytes moves it as a
-- whole.
theorem toNat_rotateLeft_byte (byte : UInt8) (n : Nat) :
    (byte.toUInt64.toBitVec.rotateLeft (8 * n)).toNat = byte.toNat * 2 ^ (8 * (n % 8)) := by
  have hb : byte.toNat < 2 ^ 8 := byte.toNat_lt
  have hn : n % 8 < 8 := Nat.mod_lt _ (by decide)
  have hlow : byte.toNat * 2 ^ (8 * (n % 8)) < 2 ^ 64 := by
    calc byte.toNat * 2 ^ (8 * (n % 8))
      _ < 2 ^ 8 * 2 ^ (8 * (n % 8)) := Nat.mul_lt_mul_of_pos_right hb (Nat.two_pow_pos _)
      _ = 2 ^ (8 + 8 * (n % 8)) := (Nat.pow_add ..).symm
      _ ≤ 2 ^ 64 := Nat.pow_le_pow_right (by decide) (by omega)
  have hhigh : byte.toNat < 2 ^ (64 - 8 * (n % 8)) :=
    Nat.lt_of_lt_of_le hb <| Nat.pow_le_pow_right (by decide) (by omega)
  have hmod : 8 * n % 64 = 8 * (n % 8) := Nat.mul_mod_mul_left 8 n 8
  rw [BitVec.toNat_rotateLeft, hmod, UInt64.toNat_toBitVec, UInt8.toNat_toUInt64,
    Nat.shiftLeft_eq, Nat.mod_eq_of_lt hlow, Nat.shiftRight_eq_div_pow, Nat.div_eq_of_lt hhigh,
    Nat.or_zero]

-- The bytes put over one another in the eight places of a word. The last one is in the lowest place
-- and each other one is a place above the next one, with the lowest place above the eighth.
def overlay (bytes : List UInt8) : Nat :=
  (bytes.mapIdx fun i b => b.toNat * 2 ^ (8 * ((bytes.length - 1 - i) % 8))).foldr (· ^^^ ·) 0

theorem overlay_cons (b : UInt8) (bs : List UInt8) :
    overlay (b :: bs) = b.toNat * 2 ^ (8 * (bs.length % 8)) ^^^ overlay bs := by
  have hi (i : Nat) : (b :: bs).length - 1 - (i + 1) = bs.length - 1 - i := by
    rw [List.length_cons]
    omega
  simp only [overlay, List.mapIdx_cons, List.foldr_cons, hi]
  rfl

-- A rotation distributes over the exclusive or, so the state and each byte are moved on their own.
theorem toNat_foldBytes (state : UInt64) (bytes : List UInt8) :
    (foldBytes state bytes).toNat
      = (state.toBitVec.rotateLeft (8 * bytes.length)).toNat ^^^ overlay bytes := by
  induction bytes generalizing state with
  | nil => simp [foldBytes, overlay, rotateLeft_zero]
  | cons b bs ih =>
    have hrot : (foldByte state b).toBitVec.rotateLeft (8 * bs.length)
        = state.toBitVec.rotateLeft (8 * (b :: bs).length)
          ^^^ b.toUInt64.toBitVec.rotateLeft (8 * bs.length) := by
      rw [toBitVec_foldByte, rotateLeft_xor, rotateLeft_rotateLeft, List.length_cons, Nat.mul_succ,
        Nat.add_comm]
    calc (foldBytes state (b :: bs)).toNat
      _ = ((foldByte state b).toBitVec.rotateLeft (8 * bs.length)).toNat ^^^ overlay bs := ih _
      _ = (state.toBitVec.rotateLeft (8 * (b :: bs).length)).toNat
            ^^^ (b.toNat * 2 ^ (8 * (bs.length % 8)) ^^^ overlay bs) := by
          rw [hrot, BitVec.toNat_xor, toNat_rotateLeft_byte, Nat.xor_assoc]
      _ = _ := by rw [overlay_cons]

-- The ninth byte is put over the first one.
example : foldBytes 0 [1, 2, 3, 4, 5, 6, 7, 8, 9] = 0x0203040506070808 := by decide

theorem foldl_foldBytes (state : UInt64) (writes : List (List UInt8)) :
    writes.foldl foldBytes state = foldBytes state writes.flatten :=
  List.foldl_flatten.symm

theorem mul_two_pow_xor {i b : Nat} (a : Nat) (h : b < 2 ^ i) :
    a * 2 ^ i ^^^ b = a * 2 ^ i + b := by
  refine Nat.eq_of_testBit_eq fun j => ?_
  rw [Nat.mul_comm, Nat.testBit_two_pow_mul_add a h, Nat.testBit_xor, Nat.testBit_two_pow_mul]
  by_cases hj : j < i
  case pos => simp [hj, Nat.not_le.mpr hj]
  case neg =>
    have hb : b < 2 ^ j := Nat.lt_of_lt_of_le h <| Nat.pow_le_pow_right (by decide) (by omega)
    simp [hj, Nat.testBit_lt_two_pow hb, Nat.not_lt.mp hj]

theorem lt_of_mem_digits {bytes : List UInt8} : ∀ d ∈ (bytes.map UInt8.toNat).reverse, d < 256 := by
  intro d hd
  obtain ⟨b, _, rfl⟩ := List.mem_map.mp (List.mem_reverse.mp hd)
  exact b.toNat_lt

-- Up to eight bytes have a place each.
theorem overlay_eq_ofDigits {bytes : List UInt8} (h : bytes.length ≤ 8) :
    overlay bytes = Nat.ofDigits 256 (bytes.map UInt8.toNat).reverse := by
  induction bytes with
  | nil => rfl
  | cons b bs ih =>
    have hlen : bs.length < 8 := h
    have hpow : 2 ^ (8 * bs.length) = 256 ^ bs.length := Nat.pow_mul ..
    have hlt : overlay bs < 2 ^ (8 * bs.length) := by
      rw [ih hlen.le, hpow]
      exact Nat.lt_of_lt_of_eq (Nat.ofDigits_lt_base_pow_length (by decide) lt_of_mem_digits)
        (by rw [List.length_reverse, List.length_map])
    calc overlay (b :: bs)
      _ = b.toNat * 2 ^ (8 * bs.length) ^^^ overlay bs := by
          rw [overlay_cons, Nat.mod_eq_of_lt hlen]
      _ = b.toNat * 2 ^ (8 * bs.length) + overlay bs := mul_two_pow_xor _ hlt
      _ = Nat.ofDigits 256 ((bs.map UInt8.toNat).reverse ++ [b.toNat]) := by
          rw [ih hlen.le, hpow, Nat.ofDigits_append, Nat.ofDigits_singleton, List.length_reverse,
            List.length_map, Nat.add_comm, Nat.mul_comm]
      _ = _ := by rw [List.map_cons, List.reverse_cons]

theorem overlay_inj {as bs : List UInt8} (hlen : as.length = bs.length) (h : as.length ≤ 8) :
    overlay as = overlay bs ↔ as = bs := by
  refine ⟨fun he => ?_, congrArg overlay⟩
  rw [overlay_eq_ofDigits h, overlay_eq_ofDigits (hlen ▸ h)] at he
  have hdigits := Nat.ofDigits_inj_of_len_eq (by decide) (by simp [hlen]) lt_of_mem_digits
    lt_of_mem_digits he
  exact (List.map_inj_right fun _ _ => UInt8.toNat_inj.mp).mp (List.reverse_injective hdigits)

theorem toNat_foldBytes_zero (bytes : List UInt8) : (foldBytes 0 bytes).toNat = overlay bytes := by
  rw [toNat_foldBytes, UInt64.toBitVec_zero, zero_rotateLeft]
  exact Nat.zero_xor _

theorem foldBytes_zero_inj {as bs : List UInt8} (hlen : as.length = bs.length)
    (h : as.length ≤ 8) : foldBytes 0 as = foldBytes 0 bs ↔ as = bs := by
  rw [← UInt64.toNat_inj, toNat_foldBytes_zero, toNat_foldBytes_zero, overlay_inj hlen h]

-- A byte at the end is in the lowest place, whatever comes before it.
theorem overlay_concat (bs : List UInt8) (b : UInt8) :
    overlay (bs ++ [b]) = overlay (bs ++ [0]) ^^^ b.toNat := by
  induction bs with
  | nil => simp [overlay]
  | cons c bs ih =>
    rw [List.cons_append, List.cons_append, overlay_cons, overlay_cons, ih, Nat.xor_assoc,
      List.length_append, List.length_append, List.length_singleton, List.length_singleton]

-- Bytes in the same place can be exchanged.
theorem overlay_exchange (a b : UInt8) {bs : List UInt8} (h : (bs.length + 1) % 8 = 0) :
    overlay (a :: (bs ++ [b])) = overlay (b :: (bs ++ [a])) := by
  have hends (c d : UInt8) :
      overlay (c :: (bs ++ [d])) = c.toNat ^^^ (overlay (bs ++ [0]) ^^^ d.toNat) := by
    rw [overlay_cons, overlay_concat, List.length_append, List.length_singleton, h, Nat.mul_zero,
      Nat.pow_zero, Nat.mul_one]
  rw [hends, hends]
  ac_rfl

-- So longer strings do not all hash apart: bytes that stand eight places from one another, or a
-- multiple of eight, can be exchanged.
theorem foldBytes_exchange (state : UInt64) (a b : UInt8) {bs : List UInt8} (cs : List UInt8)
    (h : (bs.length + 1) % 8 = 0) :
    foldBytes state (a :: bs ++ b :: cs) = foldBytes state (b :: bs ++ a :: cs) := by
  have hends : foldBytes state (a :: (bs ++ [b])) = foldBytes state (b :: (bs ++ [a])) := by
    rw [← UInt64.toNat_inj, toNat_foldBytes, toNat_foldBytes, overlay_exchange a b h]
    simp only [List.length_cons, List.length_append, List.length_nil]
  have hsplit (c d : UInt8) : c :: bs ++ d :: cs = c :: (bs ++ [d]) ++ cs := by simp
  rw [hsplit, hsplit, foldBytes_append, foldBytes_append, hends]

-- A hash does not depend on how its bytes are split over the writes. It has the state that was
-- there before, rotated, and the bytes over one another. So no two strings of one length hash alike
-- from zero if they have no more bytes than a word.
theorem hash_of_writes :
    (∀ (state : UInt64) (writes : List (List UInt8)),
      (writes.foldl foldBytes state).toNat
        = (state.toBitVec.rotateLeft (8 * writes.flatten.length)).toNat
          ^^^ overlay writes.flatten) ∧
    ∀ writes writes' : List (List UInt8),
      writes.flatten.length = writes'.flatten.length → writes.flatten.length ≤ 8 →
      writes.flatten ≠ writes'.flatten → writes.foldl foldBytes 0 ≠ writes'.foldl foldBytes 0 := by
  constructor
  case left =>
    intro state writes
    rw [foldl_foldBytes, toNat_foldBytes]
  case right =>
    intro writes writes' hlen h hne
    rw [foldl_foldBytes, foldl_foldBytes]
    exact mt (foldBytes_zero_inj hlen h).mp hne

-- Eight bytes, the last two of which are exchanged and which are split elsewhere.
theorem hash_of_writes_exchanged :
    let writes : List (List UInt8) := [[1, 2, 3], [], [4, 5, 6, 7, 8]]
    let writes' : List (List UInt8) := [[1, 2, 3, 4], [5, 6, 8, 7]]
    writes.flatten.length = writes'.flatten.length ∧ writes.flatten.length ≤ 8 ∧
      writes.flatten ≠ writes'.flatten ∧ writes.foldl foldBytes 0 ≠ writes'.foldl foldBytes 0 :=
  ⟨by decide, by decide, by decide,
    hash_of_writes.right _ _ (by decide) (by decide) (by decide)⟩

end TreeCodec.Hash
