/-!
Type expressions.

Two type expressions denote the same type exactly when they are equal. A declared type stands for
its declaration by an id, so a type that contains itself is still a finite expression.
-/
namespace TreeCodec

inductive IntTy where
  | i8 | i16 | i32 | i64 | isize | u8 | u16 | u32 | u64 | usize
  deriving DecidableEq, Repr

namespace IntTy

def isSigned : IntTy → Bool
  | i8 | i16 | i32 | i64 | isize => true
  | u8 | u16 | u32 | u64 | usize => false

def width : IntTy → Nat
  | i8 | u8 => 8
  | i16 | u16 => 16
  | i32 | u32 => 32
  | i64 | u64 | isize | usize => 64

def least (t : IntTy) : Int := if t.isSigned then -(Nat.pow 2 (t.width - 1) : Int) else 0

def greatest (t : IntTy) : Int :=
  (Nat.pow 2 (if t.isSigned then t.width - 1 else t.width) : Int) - 1

def holds (t : IntTy) (n : Int) : Bool := t.least ≤ n && n ≤ t.greatest

def name : IntTy → String
  | i8 => "i8"
  | i16 => "i16"
  | i32 => "i32"
  | i64 => "i64"
  | isize => "isize"
  | u8 => "u8"
  | u16 => "u16"
  | u32 => "u32"
  | u64 => "u64"
  | usize => "usize"

end IntTy

inductive FloatTy where
  | f32 | f64
  deriving DecidableEq, Repr

def FloatTy.name : FloatTy → String
  | f32 => "f32"
  | f64 => "f64"

inductive ScalarTy where
  | bool
  | char
  | int (t : IntTy)
  | float (t : FloatTy)
  | string
  deriving DecidableEq, Repr

inductive ListKind where
  | vector | deque
  deriving DecidableEq, Repr

inductive MapKind where
  | unordered | ordered
  deriving DecidableEq, Repr

inductive Ty where
  | scalar (s : ScalarTy)
  | dynamic
  | optional (inner : Ty)
  | boxed (inner : Ty)
  | list (kind : ListKind) (item : Ty)
  | map (kind : MapKind) (key value : Ty)
  | tuple (elements : List Ty)
  | declared (id : String)
  deriving Inhabited

namespace Ty

mutual

def beq : Ty → Ty → Bool
  | scalar s, scalar t => s = t
  | dynamic, dynamic => true
  | optional a, optional b => beq a b
  | boxed a, boxed b => beq a b
  | list k a, list l b => k = l && beq a b
  | map k a b, map l c d => k = l && beq a c && beq b d
  | tuple as, tuple bs => beqList as bs
  | declared i, declared j => i = j
  | _, _ => false

def beqList : List Ty → List Ty → Bool
  | [], [] => true
  | a :: as, b :: bs => beq a b && beqList as bs
  | _, _ => false

end

mutual

theorem beq_iff : ∀ a b : Ty, beq a b = true ↔ a = b
  | scalar _, b => by cases b <;> simp [beq]
  | dynamic, b => by cases b <;> simp [beq]
  | optional a, b => by cases b <;> simp [beq, beq_iff a]
  | boxed a, b => by cases b <;> simp [beq, beq_iff a]
  | list _ a, b => by cases b <;> simp [beq, beq_iff a]
  | map _ a c, b => by cases b <;> simp [beq, beq_iff a, beq_iff c, and_assoc]
  | tuple as, b => by cases b <;> simp [beq, beqList_iff as]
  | declared _, b => by cases b <;> simp [beq]

theorem beqList_iff : ∀ as bs : List Ty, beqList as bs = true ↔ as = bs
  | [], bs => by cases bs <;> simp [beqList]
  | a :: as, bs => by cases bs <;> simp [beqList, beq_iff a, beqList_iff as]

end

instance : DecidableEq Ty := fun a b => decidable_of_iff (beq a b = true) (beq_iff a b)

mutual

/-- The expression itself and every expression within it. -/
def parts : Ty → List Ty
  | scalar s => [scalar s]
  | dynamic => [dynamic]
  | optional a => optional a :: parts a
  | boxed a => boxed a :: parts a
  | list k a => list k a :: parts a
  | map k a b => map k a b :: (parts a ++ parts b)
  | tuple as => tuple as :: partsList as
  | declared i => [declared i]

def partsList : List Ty → List Ty
  | [] => []
  | a :: as => parts a ++ partsList as

end

theorem self_mem_parts (t : Ty) : t ∈ t.parts := by
  cases t <;> simp [parts]

end Ty
end TreeCodec
