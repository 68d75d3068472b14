import TreeCodec.Convert.Dump
import TreeCodec.Convert.Load
import TreeCodec.Proofs.Decimal
import TreeCodec.Proofs.PureRun
import TreeCodec.Proofs.Typing

/-!
Scalars that are dumped are loaded as what they were, also where they stand as the key of a map.
-/
namespace TreeCodec

namespace IntTy

open Integer

variable {i : IntTy} {n : Int}

theorem bounds_of_holds (h : i.holds n) : i.least ≤ n ∧ n ≤ i.greatest := by
  simpa [holds] using h

theorem bounds_of_signed (hs : i.isSigned) (h : i.holds n) : least64 ≤ n ∧ n ≤ greatest64 := by
  have ⟨hl, hg⟩ := bounds_of_holds h
  have hw : least64 ≤ i.least ∧ i.greatest ≤ greatest64 := by
    cases i <;> first | decide | nomatch hs
  exact ⟨Int.le_trans hw.left hl, Int.le_trans hg hw.right⟩

theorem bounds_of_unsigned (hs : ¬i.isSigned) (h : i.holds n) : 0 ≤ n ∧ n ≤ greatestUnsigned64 := by
  have ⟨hl, hg⟩ := bounds_of_holds h
  have hw : 0 ≤ i.least ∧ i.greatest ≤ greatestUnsigned64 := by
    cases i <;> first | decide | exact absurd rfl hs
  exact ⟨Int.le_trans hw.left hl, Int.le_trans hg hw.right⟩

end IntTy

namespace ScalarTy

-- Whether a map with keys of the type is written under texts that give the keys back.
def isKey : ScalarTy → Bool
  | .float _ => false
  | _ => true

theorem ofScalar_int {i : IntTy} {n : Int} (h : i.holds n) :
    (ScalarTy.int i).ofScalar (.int n) = .ok (.int i n) :=
  if_pos h

theorem ofScalar_uint {i : IntTy} {n : Nat} (h : i.holds n) :
    (ScalarTy.int i).ofScalar (.uint n) = .ok (.int i n) :=
  if_pos h

theorem toScalar_int (i : IntTy) (n : Int) :
    (ScalarTy.int i).toScalar (.int i n) = .ok (if i.isSigned then .int n else .uint n.toNat) :=
  if_pos rfl

-- A double is put into its own type as it is.
theorem ofScalar_double (x : Double) :
    (ScalarTy.float .f64).ofScalar (.float x) = .ok (.float .f64 x) := by
  show (if x.isFinite && !x.isFinite then _ else _) = _
  rw [Bool.and_not_self]
  rfl

end ScalarTy

theorem Load.scalar_of_read {s : ScalarTy} {t : Tree} {x : Scalar} {v : Value}
    (hr : t.readScalar s.kind = .ok x) (hv : s.ofScalar x = .ok v) :
    Load.scalar s (some t) = pure v := by
  simp only [Load.scalar, Load.required, Run.pure_bind, hr, hv, Run.ofExcept_ok]

theorem Dump.scalar_of_value {s : ScalarTy} {v : Value} {x : Scalar} (h : s.toScalar v = .ok x) :
    Dump.scalar s v = pure x.toTree := by
  simp only [Dump.scalar, h, Run.ofExcept_ok, Run.pure_bind]

section Int

variable {i : IntTy} {n : Int}

theorem Dump.scalar_int (h : i.holds n) :
    Dump.scalar (.int i) (.int i n) = pure (.number (.int n)) := by
  rw [Dump.scalar_of_value (ScalarTy.toScalar_int i n)]
  cases hs : i.isSigned with
  | true => rfl
  | false =>
    have ⟨hl, _⟩ := IntTy.bounds_of_unsigned (by simp [hs]) h
    obtain ⟨n, rfl⟩ := Int.eq_ofNat_of_zero_le hl
    rfl

theorem Load.scalar_int (h : i.holds n) :
    Load.scalar (.int i) (some (.number (.int n))) = pure (.int i n) := by
  cases hs : i.isSigned with
  | true =>
    have ⟨_, hg⟩ := IntTy.bounds_of_signed hs h
    refine scalar_of_read (x := .int n) ?_ (ScalarTy.ofScalar_int h)
    simp [ScalarTy.kind, hs, Tree.readScalar, Tree.readInt, hg]
  | false =>
    have ⟨hl, _⟩ := IntTy.bounds_of_unsigned (by simp [hs]) h
    obtain ⟨n, rfl⟩ := Int.eq_ofNat_of_zero_le hl
    refine scalar_of_read (x := .uint n) ?_ (ScalarTy.ofScalar_uint h)
    simp [ScalarTy.kind, hs, Tree.readScalar, Tree.readUInt]

theorem Load.scalar_toString (h : i.holds n) :
    Load.scalar (.int i) (some (.text (toString n))) = pure (.int i n) := by
  cases hs : i.isSigned with
  | true =>
    have ⟨hl, hg⟩ := IntTy.bounds_of_signed hs h
    have hread := Numeral.integer_toString Integer.greatest64.toNat hl hg
    refine scalar_of_read (x := .int n) ?_ (ScalarTy.ofScalar_int h)
    simp only [ScalarTy.kind, hs, if_true, Tree.readScalar, Tree.readInt, Numeral.trim_toString,
      hread]
  | false =>
    have ⟨hl, hg⟩ := IntTy.bounds_of_unsigned (by simp [hs]) h
    have hread := Numeral.integer_toString Integer.greatestUnsigned64.toNat hl hg
    obtain ⟨n, rfl⟩ := Int.eq_ofNat_of_zero_le hl
    refine scalar_of_read (x := .uint n) ?_ (ScalarTy.ofScalar_uint h)
    simp only [ScalarTy.kind, hs, Bool.false_eq_true, if_false, Tree.readScalar, Tree.readUInt,
      Numeral.trim_toString, hread, Int.toNat_natCast]

end Int

theorem Load.scalar_char (c : Char) :
    Load.scalar .char (some (.text (.singleton c))) = pure (.char c) := by
  refine scalar_of_read (x := .char c) ?_ rfl
  simp [ScalarTy.kind, Tree.readScalar, Tree.readChar]

namespace Schema

variable {S : Schema} {s : ScalarTy} {v : Value}

-- A scalar is read back from the tree that it is written as, which is not null.
theorem scalar_undone (h : S.HasType (.scalar s) v) (hs : s ≠ .float .f32)
    (hf : ∀ x ∈ v.doubles, x.isFinite) :
    ∃ tree, Dump.scalar s v = pure tree ∧ Load.scalar s (some tree) = pure v ∧ tree ≠ .null := by
  cases h with
  | bool b => exact ⟨.bool b, rfl, rfl, nofun⟩
  | char c => exact ⟨.text (.singleton c), rfl, Load.scalar_char c, nofun⟩
  | @int i n hi => exact ⟨.number (.int n), Dump.scalar_int hi, Load.scalar_int hi, nofun⟩
  | single => exact absurd rfl hs
  | double x =>
    have hx : x.isFinite := hf x (List.mem_singleton_self x)
    refine ⟨.number (.float x), ?_, ?_, nofun⟩
    · rw [Dump.scalar_of_value (x := .float x) rfl, Scalar.toTree, if_pos hx]
    · exact Load.scalar_of_read (x := .float x) rfl (ScalarTy.ofScalar_double x)
  | text s => exact ⟨.text s, rfl, rfl, nofun⟩
  | tree _ hshape => nomatch hshape

-- A key is read back from the text that it is written under.
theorem key_undone (h : S.HasType (.scalar s) v) (hs : s.isKey) :
    ∃ tree name, Dump.scalar s v = pure tree ∧ Dump.keyText tree = pure name ∧
      Load.scalar s (some (.text name)) = pure v := by
  cases h with
  | bool b =>
    refine ⟨.bool b, toString b, rfl, rfl, Load.scalar_of_read (x := .bool b) ?_ rfl⟩
    cases b <;> decide
  | char c => exact ⟨.text (.singleton c), .singleton c, rfl, rfl, Load.scalar_char c⟩
  | @int i n hi =>
    exact ⟨.number (.int n), toString n, Dump.scalar_int hi, rfl, Load.scalar_toString hi⟩
  | single => nomatch hs
  | double => nomatch hs
  | text s => exact ⟨.text s, s, rfl, rfl, rfl⟩
  | tree _ hshape => nomatch hshape

end Schema
end TreeCodec
