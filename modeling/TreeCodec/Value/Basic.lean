import TreeCodec.Schema.Type
import TreeCodec.Tree.Basic

/-!
Typed values.

Every value carries its type, also an empty list or an absent option, so a value of an unknown type
can be asked what it is. The types of the parts of a value agree with its own when it was built by
the checked constructors of `Value.Build`.
-/
namespace TreeCodec

inductive Value where
  | bool (b : Bool)
  | char (c : Char)
  | int (ty : IntTy) (n : Int)
  | float (ty : FloatTy) (x : Double)
  | text (s : String)
  -- A value that keeps its tree: of the dynamic type, or of a declared type without a structure.
  | tree (ty : Ty) (t : Tree)
  | none (inner : Ty)
  | some (v : Value)
  | boxed (v : Value)
  | list (kind : ListKind) (item : Ty) (items : List Value)
  | map (kind : MapKind) (key value : Ty) (entries : List (Value × Value))
  | tuple (elements : List Value)
  | record (id : String) (fields : List Value)
  | union (id : String) (variant : Nat) (payload : Value)
  deriving Inhabited

namespace Value

mutual

def ty : Value → Ty
  | bool _ => .scalar .bool
  | char _ => .scalar .char
  | int t _ => .scalar (.int t)
  | float t _ => .scalar (.float t)
  | text _ => .scalar .string
  | tree t _ => t
  | none t => .optional t
  | some v => .optional (ty v)
  | boxed v => .boxed (ty v)
  | list k t _ => .list k t
  | map k s t _ => .map k s t
  | tuple vs => .tuple (tyList vs)
  | record id _ => .declared id
  | union id _ _ => .declared id

def tyList : List Value → List Ty
  | [] => []
  | v :: vs => ty v :: tyList vs

end

theorem tyList_eq_map (vs : List Value) : tyList vs = vs.map ty := by
  induction vs with
  | nil => rfl
  | cons v vs ih => simp [tyList, ih]

mutual

def beq : Value → Value → Bool
  | bool a, bool b => a = b
  | char a, char b => a = b
  | int s m, int t n => s = t && m = n
  | float s x, float t y => s = t && x = y
  | text a, text b => a = b
  | tree s x, tree t y => s = t && x = y
  | none s, none t => s = t
  | some v, some w => beq v w
  | boxed v, boxed w => beq v w
  | list k s vs, list l t ws => k = l && s = t && beqList vs ws
  | map k s t vs, map l s' t' ws => k = l && s = s' && t = t' && beqEntries vs ws
  | tuple vs, tuple ws => beqList vs ws
  | record i vs, record j ws => i = j && beqList vs ws
  | union i m v, union j n w => i = j && m = n && beq v w
  | _, _ => false

def beqList : List Value → List Value → Bool
  | [], [] => true
  | v :: vs, w :: ws => beq v w && beqList vs ws
  | _, _ => false

def beqEntries : List (Value × Value) → List (Value × Value) → Bool
  | [], [] => true
  | (k, v) :: vs, (l, w) :: ws => beq k l && beq v w && beqEntries vs ws
  | _, _ => false

end

mutual

theorem beq_iff : ∀ v w : Value, beq v w = true ↔ v = w
  | bool _, w => by cases w <;> simp [beq]
  | char _, w => by cases w <;> simp [beq]
  | int _ _, w => by cases w <;> simp [beq]
  | float _ _, w => by cases w <;> simp [beq]
  | text _, w => by cases w <;> simp [beq]
  | tree _ _, w => by cases w <;> simp [beq]
  | none _, w => by cases w <;> simp [beq]
  | some v, w => by cases w <;> simp [beq, beq_iff v]
  | boxed v, w => by cases w <;> simp [beq, beq_iff v]
  | list _ _ vs, w => by cases w <;> simp [beq, beqList_iff vs, and_assoc]
  | map _ _ _ vs, w => by cases w <;> simp [beq, beqEntries_iff vs, and_assoc]
  | tuple vs, w => by cases w <;> simp [beq, beqList_iff vs]
  | record _ vs, w => by cases w <;> simp [beq, beqList_iff vs]
  | union _ _ v, w => by cases w <;> simp [beq, beq_iff v, and_assoc]

theorem beqList_iff : ∀ vs ws : List Value, beqList vs ws = true ↔ vs = ws
  | [], ws => by cases ws <;> simp [beqList]
  | v :: vs, ws => by cases ws <;> simp [beqList, beq_iff v, beqList_iff vs]

theorem beqEntries_iff :
    ∀ vs ws : List (Value × Value), beqEntries vs ws = true ↔ vs = ws
  | [], ws => by cases ws <;> simp [beqEntries]
  | (k, v) :: vs, ws => by
    rcases ws with _ | ⟨⟨l, w⟩, ws⟩ <;>
      simp [beqEntries, beq_iff k, beq_iff v, beqEntries_iff vs, and_assoc]

end

instance : DecidableEq Value := fun v w => decidable_of_iff (beq v w = true) (beq_iff v w)

mutual

/-- The number of values within a value, itself included. -/
def size : Value → Nat
  | some v => size v + 1
  | boxed v => size v + 1
  | list _ _ vs => sizeList vs + 1
  | map _ _ _ vs => sizeEntries vs + 1
  | tuple vs => sizeList vs + 1
  | record _ vs => sizeList vs + 1
  | union _ _ v => size v + 1
  | _ => 1

def sizeList : List Value → Nat
  | [] => 0
  | v :: vs => size v + sizeList vs

def sizeEntries : List (Value × Value) → Nat
  | [] => 0
  | (k, v) :: vs => size k + size v + sizeEntries vs

end

end Value
end TreeCodec
