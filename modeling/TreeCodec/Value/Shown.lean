import TreeCodec.Tree.Writer
import TreeCodec.Schema.Basic

/-!
Values shown as trees.

A shown value tells its structure and exactly what its leaves hold: integers stand in decimal,
floats as their bits. It does not depend on how its type is dumped, so it tells values apart that
are dumped alike.
-/
namespace TreeCodec

private def labelled (label : String) (t : Tree) : Tree := .object [(label, t)]

/-- Entries in ascending order of the written form of their keys. -/
def sortShown (entries : List (Tree × Tree)) : List (Tree × Tree) :=
  entries.mergeSort fun a b => a.1.write ≤ b.1.write

def Double.shown (x : Double) : String := if x.isNaN then "nan" else x.hex

namespace Schema

variable (S : Schema)

def variantName (id : String) (index : Nat) : String :=
  match S.variants (.declared id) with
  | .ok variants => ((variants[index]?).map Variant.name).getD ""
  | .error _ => ""

mutual

def shown : Value → Tree
  | .bool b => .bool b
  | .char c => labelled "c" (.text (String.singleton c))
  | .int t n => labelled (if t.isSigned then "i" else "u") (.text (toString n))
  | .float _ x => labelled "f" (.text x.shown)
  | .text s => labelled "s" (.text s)
  | .tree (.declared id) t => .object [("raw", .text id), ("tree", .text t.write)]
  | .tree _ t => labelled "tree" (.text t.write)
  | .none _ => .null
  | .some v => labelled "some" (shown v)
  | .boxed v => labelled "box" (shown v)
  | .list _ _ vs => .array (shownList vs)
  | .map kind _ _ es =>
    let pairs := match kind with
      | .unordered => sortShown (shownEntries es)
      | .ordered => shownEntries es
    labelled "map" (.array (pairs.map fun (k, v) => .array [k, v]))
  | .tuple vs => labelled "tuple" (.array (shownList vs))
  | .record id vs => .object [("record", .text id), ("fields", .array (shownList vs))]
  | .union id index v =>
    .object [("union", .text id), ("variant", .text (S.variantName id index)), ("value", shown v)]

def shownList : List Value → List Tree
  | [] => []
  | v :: vs => shown v :: shownList vs

def shownEntries : List (Value × Value) → List (Tree × Tree)
  | [] => []
  | (k, v) :: es => (shown k, shown v) :: shownEntries es

end

end Schema
end TreeCodec
