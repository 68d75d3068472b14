import TreeCodec.Value.Order
import TreeCodec.Value.Shown

/-!
Which keys of a map are one key, and what a list of entries leaves in a map.

Two keys of a declared type are one key if they are shown alike. Otherwise keys are compared part by
part, and trees of the dynamic type as JSON values.
-/
namespace TreeCodec.Schema

variable (S : Schema)

mutual

/-- Whether two keys are one key of an unordered map. -/
def sameKey : Value → Value → Bool
  | .tree .dynamic s, .tree .dynamic t => s.same t
  | .some v, .some w => sameKey v w
  | .boxed v, .boxed w => sameKey v w
  | .list _ _ vs, .list _ _ ws => sameKeys vs ws
  | .tuple vs, .tuple ws => sameKeys vs ws
  | .map .ordered _ _ es, .map .ordered _ _ fs => sameEntries es fs
  | v, w =>
    match v.ty with
    | .declared _ => (S.shown v).write = (S.shown w).write
    | _ => v = w

def sameKeys : List Value → List Value → Bool
  | [], [] => true
  | v :: vs, w :: ws => sameKey v w && sameKeys vs ws
  | _, _ => false

def sameEntries : List (Value × Value) → List (Value × Value) → Bool
  | [], [] => true
  | (k, v) :: es, (l, w) :: fs => sameKey k l && sameKey v w && sameEntries es fs
  | _, _ => false

end

/-- Puts an entry into a list of entries, replacing the value of a key that is there. -/
def putEntry (k v : Value) : List (Value × Value) → List (Value × Value)
  | [] => [(k, v)]
  | (l, w) :: rest => if S.sameKey l k then (l, v) :: rest else (l, w) :: putEntry k v rest

/-- The entries of a map that a list of entries gives: of equal keys the last value stays. -/
def collect (kind : MapKind) (entries : List (Value × Value)) : List (Value × Value) :=
  match kind with
  | .unordered => entries.foldl (fun out (k, v) => S.putEntry k v out) []
  | .ordered => entries.foldl (fun out (k, v) => Value.putOrdered k v out) []

end TreeCodec.Schema
