import TreeCodec.Convert.Hook
import TreeCodec.Convert.Run
import TreeCodec.Convert.Scalar
import TreeCodec.Value.Build

/-!
How the kinds of types are dumped, given how their parts are.

A map is written with the texts of its dumped keys; an unordered one in ascending order of them, so
that its tree does not depend on the order of its entries.
-/
namespace TreeCodec.Dump

variable (S : Schema)

/-- A dumper of one type. -/
abbrev Rule := Value → Run Tree

def scalar (s : ScalarTy) : Rule := fun v => do
  let value ← Run.ofExcept (s.toScalar v)
  return value.toTree

def tree (ty : Ty) : Rule := fun v => Run.ofExcept (S.toTree ty v)

def hook (h : DumpHook) : Rule := fun v =>
  match h v with
  | .ok t => pure t
  | .error message => Run.fault (.hook message)

def optional (ty : Ty) (dump : Rule) : Rule := fun v => do
  match ← Run.ofExcept (S.optionValue ty v) with
  | some w => dump w
  | none => pure .null

def boxed (ty : Ty) (dump : Rule) : Rule := fun v => do
  let w ← Run.ofExcept (S.boxValue ty v)
  dump w

def list (ty : Ty) (dump : Rule) : Rule := fun v => do
  let items ← Run.ofExcept (S.listItems ty v)
  let trees ← Run.forEach (fun i w => (dump w).within (.index i)) 0 items
  return .array trees

def sortByKey (entries : List (String × Tree)) : List (String × Tree) :=
  entries.mergeSort fun a b => a.1 ≤ b.1

def keyText (t : Tree) : Run String :=
  match t.keyText with
  | .ok s => pure s
  | .error f => Run.fault f

def map (ty : Ty) (kind : MapKind) (dumpKey dumpValue : Rule) : Rule := fun v => do
  let entries ← Run.ofExcept (S.mapEntries ty v)
  let dumped ← Run.forEach (fun _ (k, w) => do
    let key ← dumpKey k
    let name ← keyText key
    let t ← (dumpValue w).within (.key name)
    return (name, t)) 0 entries
  let dumped := match kind with
    | .unordered => sortByKey dumped
    | .ordered => dumped
  return .object (Keyed.ofList dumped)

/-- A union is dumped as the value of its active variant, and nothing tells which one it is. -/
def union (ty : Ty) (dumps : List Rule) : Rule := fun v => do
  let (index, payload) ← Run.ofExcept (S.activeVariant ty v)
  match dumps[index]? with
  | some dump => dump payload
  | none => Run.fault (.schema (.noVariant (S.path ty) index))

/-- A part of a value, which has to be there. -/
def part (found : Except SchemaError (Option Value)) : Run Value := do
  match ← Run.ofExcept found with
  | some v => pure v
  | none => Run.fault .missing

end TreeCodec.Dump
