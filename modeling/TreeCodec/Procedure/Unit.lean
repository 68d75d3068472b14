import TreeCodec.Procedure.Linker

/-!
Compiled units: linked procedures that call one another by their places in the unit.

Procedures may call themselves without end. A run is therefore given a number of calls that it may
nest. One that ends at all never nests more than `loadBudget` (or `dumpBudget`) calls: no procedure
can be running twice on one value, and the values that a chain of calls works on are the input,
trees within it, and possibly a key and an absent tree.
-/
namespace TreeCodec

structure CompiledUnit where
  record : String
  loads : List LoadProcedure
  dumps : List DumpProcedure
  slots : SlotTable
  listing : String

namespace CompiledUnit

variable (U : CompiledUnit) (S : Schema)

def names : List String := Keyed.keys U.slots

def size : Nat := U.slots.length

def isEmpty : Bool := U.slots.isEmpty

def describe : String :=
  "CompiledUnit \x7b record: " ++ Text.quoted U.record ++ ", procedures: [" ++
    ", ".intercalate (U.names.map Text.quoted) ++ "] \x7d"

/-- The place of the load procedure of a name. -/
def loader? (name : String) : Option Nat := U.slots.load? name

def dumper? (name : String) : Option Nat := U.slots.dump? name

/-- Calls a load procedure without a default, nesting at most `budget` calls. -/
def callLoad : Nat → Nat → Load.Rule
  | 0, _, _ => Run.unfinished
  | budget + 1, index, input =>
    match U.loads[index]? with
    | some p => p.run S (callLoad budget) input none
    | none => Run.unfinished

def callDump : Nat → Nat → Dump.Rule
  | 0, _, _ => Run.unfinished
  | budget + 1, index, v =>
    match U.dumps[index]? with
    | some p => p.run S (callDump budget) v
    | none => Run.unfinished

def loadBudget (input : Option Tree) : Nat :=
  U.loads.length * ((input.map Tree.depth).getD 0 + 3)

def dumpBudget (v : Value) : Nat := U.dumps.length * v.size

/-- Runs a load procedure. The default stands in for an absent tree. -/
def load (index : Nat) (input : Option Tree) (default : Option Value) : Run Value :=
  match U.loads[index]? with
  | some p => p.run S (U.callLoad S (U.loadBudget input)) input default
  | none => Run.unfinished

def dump (index : Nat) (v : Value) : Run Tree :=
  match U.dumps[index]? with
  | some p => p.run S (U.callDump S (U.dumpBudget v)) v
  | none => Run.unfinished

end CompiledUnit

namespace Builder

variable (b : Builder) (S : Schema)

private def failure (p : Procedure) (fault : LinkFault) : CodegenError :=
  .compilation p.name b.record fault b.listing

/-- Links procedures one after the other. -/
def linkAll (slots : SlotTable) :
    List Procedure → Except CodegenError (List LoadProcedure × List DumpProcedure)
  | [] => .ok ([], [])
  | p :: ps => do
    let L : Linker := { schema := S, slots, locals := p.locals }
    match p.signature.direction with
    | .load =>
      let q ← (L.loadProcedure p).mapError (failure b p)
      let (loads, dumps) ← linkAll slots ps
      return (q :: loads, dumps)
    | .dump =>
      let q ← (L.dumpProcedure p).mapError (failure b p)
      let (loads, dumps) ← linkAll slots ps
      return (loads, q :: dumps)

/-- Links the sealed procedures into one unit. -/
def link : Except CodegenError CompiledUnit := do
  if let p :: _ := b.pending then throw (.builderState (.linkWhilePending p.name))
  let slots := SlotTable.ofProcedures 0 0 b.sealed
  let (loads, dumps) ← b.linkAll S slots b.sealed
  return { record := b.record, loads, dumps, slots, listing := b.listing }

end Builder
end TreeCodec
