import TreeCodec.Tree.Writer
import TreeCodec.Value.Basic

/-!
The order of map keys.

Keys of one type are ordered by what they hold: numbers by size, texts and sequences
lexicographically, an absent option first.
-/
namespace TreeCodec.Value

private def compareText (s t : String) : Ordering := compareOfLessAndEq s t

mutual

def order : Value → Value → Ordering
  | bool a, bool b => compare a.toNat b.toNat
  | char a, char b => compare a.toNat b.toNat
  | int _ m, int _ n => compare m n
  | float _ x, float _ y => compare x.bits.toNat y.bits.toNat
  | text s, text t => compareText s t
  | tree _ s, tree _ t => compareText s.write t.write
  | none _, none _ => .eq
  | none _, some _ => .lt
  | some _, none _ => .gt
  | some v, some w => order v w
  | boxed v, boxed w => order v w
  | list _ _ vs, list _ _ ws => orderList vs ws
  | map _ _ _ vs, map _ _ _ ws => orderEntries vs ws
  | tuple vs, tuple ws => orderList vs ws
  | record _ vs, record _ ws => orderList vs ws
  | union _ m v, union _ n w => (compare m n).then (order v w)
  | _, _ => .eq

def orderList : List Value → List Value → Ordering
  | [], [] => .eq
  | [], _ :: _ => .lt
  | _ :: _, [] => .gt
  | v :: vs, w :: ws => (order v w).then (orderList vs ws)

def orderEntries : List (Value × Value) → List (Value × Value) → Ordering
  | [], [] => .eq
  | [], _ :: _ => .lt
  | _ :: _, [] => .gt
  | (k, v) :: vs, (l, w) :: ws => ((order k l).then (order v w)).then (orderEntries vs ws)

end

/-- Puts an entry into a list of entries in ascending order of their keys. -/
def putOrdered (k v : Value) : List (Value × Value) → List (Value × Value)
  | [] => [(k, v)]
  | (l, w) :: rest =>
    match order k l with
    | .lt => (k, v) :: (l, w) :: rest
    | .eq => (k, v) :: rest
    | .gt => (l, w) :: putOrdered k v rest

end TreeCodec.Value
