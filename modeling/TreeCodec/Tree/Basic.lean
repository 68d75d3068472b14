import TreeCodec.Number.Layout
import TreeCodec.Store.Keyed

/-!
JSON trees.

A number is an integer or a double, and the two never compare equal. An object is a list of entries
in the order in which they were written, one for each key.
-/
namespace TreeCodec

inductive Number where
  | int (n : Int)
  | float (x : Double)
  deriving DecidableEq, Repr, Inhabited

namespace Number

def toDouble : Number → Double
  | int n => .ofInt n
  | float x => x

def same : Number → Number → Bool
  | int m, int n => m = n
  | float x, float y => x.sameNumber y
  | _, _ => false

/-- How a number stands in a tree, and how messages quote it. -/
def text : Number → String
  | int n => toString n
  | float x => x.render .tree

end Number

inductive Tree where
  | null
  | bool (b : Bool)
  | number (n : Number)
  | text (s : String)
  | array (items : List Tree)
  | object (entries : List (String × Tree))
  deriving Inhabited

inductive TreeKind where
  | null | bool | number | string | array | object
  deriving DecidableEq, Repr

def TreeKind.text : TreeKind → String
  | null => "null"
  | bool => "bool"
  | number => "number"
  | string => "string"
  | array => "array"
  | object => "object"

namespace Tree

def kind : Tree → TreeKind
  | null => .null
  | bool _ => .bool
  | number _ => .number
  | text _ => .string
  | array _ => .array
  | object _ => .object

def isNull : Tree → Bool
  | null => true
  | _ => false

@[simp] theorem isNull_iff {t : Tree} : t.isNull = true ↔ t = .null := by
  cases t <;> simp [isNull]

mutual

def beq : Tree → Tree → Bool
  | null, null => true
  | bool a, bool b => a = b
  | number m, number n => m = n
  | text s, text t => s = t
  | array xs, array ys => beqItems xs ys
  | object xs, object ys => beqEntries xs ys
  | _, _ => false

def beqItems : List Tree → List Tree → Bool
  | [], [] => true
  | x :: xs, y :: ys => beq x y && beqItems xs ys
  | _, _ => false

def beqEntries : List (String × Tree) → List (String × Tree) → Bool
  | [], [] => true
  | (k, x) :: xs, (l, y) :: ys => k = l && beq x y && beqEntries xs ys
  | _, _ => false

end

mutual

theorem beq_iff : ∀ s t : Tree, beq s t = true ↔ s = t
  | null, t => by cases t <;> simp [beq]
  | bool _, t => by cases t <;> simp [beq]
  | number _, t => by cases t <;> simp [beq]
  | text _, t => by cases t <;> simp [beq]
  | array xs, t => by cases t <;> simp [beq, beqItems_iff xs]
  | object xs, t => by cases t <;> simp [beq, beqEntries_iff xs]

theorem beqItems_iff : ∀ xs ys : List Tree, beqItems xs ys = true ↔ xs = ys
  | [], ys => by cases ys <;> simp [beqItems]
  | x :: xs, ys => by cases ys <;> simp [beqItems, beq_iff x, beqItems_iff xs]

theorem beqEntries_iff : ∀ xs ys : List (String × Tree), beqEntries xs ys = true ↔ xs = ys
  | [], ys => by cases ys <;> simp [beqEntries]
  | (k, x) :: xs, ys => by
    rcases ys with _ | ⟨⟨l, y⟩, ys⟩ <;> simp [beqEntries, beq_iff x, beqEntries_iff xs]

end

instance : DecidableEq Tree := fun s t => decidable_of_iff (beq s t = true) (beq_iff s t)

mutual

/-- Equality of trees as JSON values: the order of the entries of an object does not count. -/
def same : Tree → Tree → Bool
  | null, null => true
  | bool a, bool b => a = b
  | number m, number n => m.same n
  | text s, text t => s = t
  | array xs, array ys => sameItems xs ys
  | object xs, object ys => xs.length = ys.length && sameEntries xs ys
  | _, _ => false

def sameItems : List Tree → List Tree → Bool
  | [], [] => true
  | x :: xs, y :: ys => same x y && sameItems xs ys
  | _, _ => false

def sameEntries : List (String × Tree) → List (String × Tree) → Bool
  | [], _ => true
  | (k, x) :: xs, ys =>
    (match Keyed.get? k ys with
      | some y => same x y
      | none => false) && sameEntries xs ys

end

mutual

/-- The number of arrays and objects around the innermost leaf. -/
def depth : Tree → Nat
  | array items => depthItems items + 1
  | object entries => depthEntries entries + 1
  | _ => 0

def depthItems : List Tree → Nat
  | [] => 0
  | t :: ts => max (depth t) (depthItems ts)

def depthEntries : List (String × Tree) → Nat
  | [] => 0
  | (_, t) :: ts => max (depth t) (depthEntries ts)

end

end Tree
end TreeCodec
