import TreeCodec.Procedure.Builder
import TreeCodec.Procedure.Linked

/-!
The linker resolves the names of a procedure: variables against the binders around them, helpers
against the locals of the procedure, and called procedures against the unit.

It refuses whatever does not resolve and whatever does not stand in order, so what it links cannot
go wrong for a reason that lies in the procedure. Of several faults the first one is reported.
-/
namespace TreeCodec

/-- The place of a procedure among those of its direction. -/
inductive Slot where
  | load (index : Nat)
  | dump (index : Nat)
  deriving DecidableEq, Repr

/-- The names of procedures in order, each with its place. -/
abbrev SlotTable := List (String × Slot)

namespace SlotTable

/-- The table of procedures that follow `loads` loading and `dumps` dumping ones. -/
def ofProcedures (loads dumps : Nat) : List Procedure → SlotTable
  | [] => []
  | p :: ps =>
    match p.signature.direction with
    | .load => (p.name, .load loads) :: ofProcedures (loads + 1) dumps ps
    | .dump => (p.name, .dump dumps) :: ofProcedures loads (dumps + 1) ps

def load? (table : SlotTable) (name : String) : Option Nat :=
  match Keyed.get? name table with
  | some (.load index) => some index
  | _ => none

def dump? (table : SlotTable) (name : String) : Option Nat :=
  match Keyed.get? name table with
  | some (.dump index) => some index
  | _ => none

end SlotTable

/-- What the names of a procedure are resolved against. -/
structure Linker where
  schema : Schema
  slots : SlotTable
  locals : Locals

/-- The names of the binders around a place, innermost first. -/
abbrev Scope := List String

abbrev LinkM := Except LinkFault

namespace Linker

variable (L : Linker)

def binding (name : String) : LinkM Binding :=
  match Keyed.get? name L.locals with
  | some b => .ok b
  | none => .error (.unbound name)

def type (name : String) : LinkM Ty := do
  match ← L.binding name with
  | .type t => return t
  | b => .error (.notType name (b.kind L.schema))

def default (name : String) : LinkM Value := do
  match ← L.binding name with
  | .default v => return v
  | b => .error (.notDefault name (b.kind L.schema))

/-- A type of the kind that a helper is for. -/
def helper {α : Type} (name : String) (view : Ty → Except KindMismatch α) : LinkM (Ty × α) := do
  let t ← L.type name
  match view t with
  | .ok a => return (t, a)
  | .error e => .error (.helperKind name e)

/-- A union with one variant for each of `given` alternatives. -/
def unionHelper (name : String) (given : Nat) : LinkM (Ty × List Variant) := do
  let (t, variants) ← L.helper name L.schema.variants
  if variants.length = given then return (t, variants)
  else .error (.alternatives name variants.length given)

/-- The number of binders between a place and the variable that an operand reads from. -/
def depth (scope : Scope) (arg : Operand) : LinkM Nat :=
  match scope.idxOf? arg.base with
  | some up => .ok up
  | none => .error (.outOfScope arg.base)

def loadSource (scope : Scope) (arg : Operand) : LinkM LoadSource := do
  let up ← depth scope arg
  match arg with
  | .var _ => return .var up
  | .key _ name => return .key up name
  | .item _ index => return .item up index
  | .attr .. | .element .. => .error (.notTree arg)

def dumpSource (scope : Scope) (arg : Operand) : LinkM DumpSource := do
  let up ← depth scope arg
  match arg with
  | .var _ => return .var up
  | .attr _ owner index name =>
    let t ← L.type owner
    match L.schema.fields t with
    | .ok (fields, _) =>
      if index < fields.length then return .attr up t index name
      else .error (.noField arg owner index)
    | .error e => .error (.ownerKind arg e)
  | .element _ owner index =>
    let t ← L.type owner
    match L.schema.elements t with
    | .ok elements =>
      if index < elements.length then return .element up t index
      else .error (.noElement arg owner index)
    | .error e => .error (.ownerKind arg e)
  | .key .. | .item .. => .error (.notValue arg)

/-- The place of a procedure of a direction. -/
def procedure (name : String) (d : Direction) : LinkM Nat :=
  match Keyed.get? name L.slots, d with
  | some (.load index), .load => .ok index
  | some (.dump index), .dump => .ok index
  | some _, _ => .error (.wrongDirection name d)
  | none, _ => .error (.undefinedProcedure name)

mutual

def loadExpr : Expr → Scope → LinkM LoadExpr
  | .leaf helper arg, scope => do
    let s ← loadSource scope arg
    match ← L.binding helper with
    | .type t =>
      match L.schema.shape t with
      | .scalar k => return .scalar s k
      | .dynamic => return .tree s t
      | shape => .error (.notLeaf helper shape.kind)
    | .loadHook h => return .hook s h
    | b => .error (.notHelper helper .load (b.kind L.schema))
  | .call name arg, scope => do
    let index ← L.procedure name .load
    let s ← loadSource scope arg
    return .call s index
  | .optional helper arg binder e, scope => do
    let (_, inner) ← L.helper helper L.schema.option
    let s ← loadSource scope arg
    let e ← loadExpr e (binder :: scope)
    return .optional s inner e
  | .boxed helper arg binder e, scope => do
    let (_, inner) ← L.helper helper L.schema.box
    let s ← loadSource scope arg
    let e ← loadExpr e (binder :: scope)
    return .boxed s inner e
  | .list helper arg binder e, scope => do
    let (t, item) ← L.helper helper L.schema.item
    let s ← loadSource scope arg
    let e ← loadExpr e (binder :: scope)
    return .list s t item e
  | .map helper arg keyBinder key valueBinder value, scope => do
    let (t, kind, keyTy, valueTy) ← L.helper helper L.schema.entry
    let s ← loadSource scope arg
    let k ← loadExpr key (keyBinder :: scope)
    let v ← loadExpr value (valueBinder :: scope)
    return .map s t kind keyTy valueTy k v
  | .union helper arg binder es, scope => do
    let (t, variants) ← L.unionHelper helper es.length
    let s ← loadSource scope arg
    let es ← loadExprs es (binder :: scope)
    return .union s t variants es

def loadExprs : List Expr → Scope → LinkM (List LoadExpr)
  | [], _ => return []
  | e :: es, scope => do
    let e ← loadExpr e scope
    let es ← loadExprs es scope
    return e :: es

end

mutual

def dumpExpr : Expr → Scope → LinkM DumpExpr
  | .leaf helper arg, scope => do
    let s ← L.dumpSource scope arg
    match ← L.binding helper with
    | .type t =>
      match L.schema.shape t with
      | .scalar k => return .scalar s k
      | .dynamic => return .tree s t
      | shape => .error (.notLeaf helper shape.kind)
    | .dumpHook h => return .hook s h
    | b => .error (.notHelper helper .dump (b.kind L.schema))
  | .call name arg, scope => do
    let index ← L.procedure name .dump
    let s ← L.dumpSource scope arg
    return .call s index
  | .optional helper arg binder e, scope => do
    let (t, _) ← L.helper helper L.schema.option
    let s ← L.dumpSource scope arg
    let e ← dumpExpr e (binder :: scope)
    return .optional s t e
  | .boxed helper arg binder e, scope => do
    let (t, _) ← L.helper helper L.schema.box
    let s ← L.dumpSource scope arg
    let e ← dumpExpr e (binder :: scope)
    return .boxed s t e
  | .list helper arg binder e, scope => do
    let (t, _) ← L.helper helper L.schema.item
    let s ← L.dumpSource scope arg
    let e ← dumpExpr e (binder :: scope)
    return .list s t e
  | .map helper arg keyBinder key valueBinder value, scope => do
    let (t, kind, _) ← L.helper helper L.schema.entry
    let s ← L.dumpSource scope arg
    let k ← dumpExpr key (keyBinder :: scope)
    let v ← dumpExpr value (valueBinder :: scope)
    return .map s t kind k v
  | .union helper arg binder es, scope => do
    let (t, _) ← L.unionHelper helper es.length
    let s ← L.dumpSource scope arg
    let es ← dumpExprs es (binder :: scope)
    return .union s t es

def dumpExprs : List Expr → Scope → LinkM (List DumpExpr)
  | [], _ => return []
  | e :: es, scope => do
    let e ← dumpExpr e scope
    let es ← dumpExprs es scope
    return e :: es

end

def parameter (s : Signature) : LinkM String :=
  match s.valueParam? with
  | some param => .ok param
  | none => .error .noParameter

/-- Nothing may follow what ends a body. -/
def nothing : List Stmt → LinkM Unit
  | [] => .ok ()
  | stmt :: _ => .error (.afterReturn stmt)

/-- The check of the parameter that a body may begin with. -/
def expectation (param : String) : List Stmt → LinkM (Option Expectation × List Stmt)
  | .beginMapping arg :: rest =>
    if arg = .var param then .ok (some .mapping, rest) else .ok (none, .beginMapping arg :: rest)
  | .beginSequence arg min len :: rest =>
    if arg = .var param then
      if len < min then .error (.lengthBounds min len) else .ok (some (.sequence min len), rest)
    else .ok (none, .beginSequence arg min len :: rest)
  | stmts => .ok (none, stmts)

/-- The keys that a mapping is restricted to. -/
def knownKeys (param : String) (checked : Option Expectation) :
    List Stmt → LinkM (Option (List String) × List Stmt)
  | .rejectUnknownKeys arg keys :: rest =>
    if checked = some .mapping ∧ arg = .var param then .ok (some keys, rest)
    else .error .uncheckedKeys
  | stmts => .ok (none, stmts)

/-- The slots from number `slot` on. -/
def assignments (param : String) (slot : Nat) :
    List Stmt → LinkM (List Assignment × List Stmt)
  | .assign n arg value default :: rest => do
    if n ≠ slot then throw (.slotOrder n)
    let default ← match default with
      | some name => some <$> L.default name
      | none => pure none
    let source ← loadSource [param] arg
    let value ← L.loadExpr value [param]
    let (as, rest) ← assignments param (slot + 1) rest
    return (⟨source, value, default⟩ :: as, rest)
  | stmts => .ok ([], stmts)

/-- What a body returns, when `assigned` slots are filled. -/
def loadResult (param : String) (assigned : Nat) : List Stmt → LinkM (LoadResult × List Stmt)
  | .construct cls :: rest => do
    let t ← L.type cls
    let arity ← match L.schema.shape t with
      | .record fields _ => pure fields.length
      | .tuple elements => pure elements.length
      | shape => throw (.notConstructible cls shape.kind)
    if arity = assigned then return (.construct t, rest) else throw (.arity cls assigned)
  | .returnValue e :: rest => do
    if assigned ≠ 0 then throw .unusedSlots
    let e ← L.loadExpr e [param]
    return (.value e, rest)
  | stmt :: _ => .error (.misplaced stmt .load)
  | [] => .error .neverReturns

def loadProcedure (p : Procedure) : LinkM LoadProcedure := do
  let param ← parameter p.signature
  let (expectation, stmts) ← expectation param p.body
  let (knownKeys, stmts) ← knownKeys param expectation stmts
  let (assignments, stmts) ← L.assignments param 0 stmts
  let (result, stmts) ← L.loadResult param assignments.length stmts
  nothing stmts
  return { name := p.name, expectation, knownKeys, assignments, result }

def insertions (param : String) : List Stmt → LinkM (List Insertion × List Stmt)
  | .insert key value omitNull :: rest => do
    let value ← L.dumpExpr value [param]
    let (is, rest) ← insertions param rest
    return (⟨key, value, omitNull⟩ :: is, rest)
  | .returnOutput :: rest => .ok ([], rest)
  | stmt :: _ => .error (.misplacedAfter stmt .mapping)
  | [] => .error .neverReturns

def pushes (param : String) : List Stmt → LinkM (List DumpExpr × List Stmt)
  | .push value :: rest => do
    let value ← L.dumpExpr value [param]
    let (es, rest) ← pushes param rest
    return (value :: es, rest)
  | .returnOutput :: rest => .ok ([], rest)
  | stmt :: _ => .error (.misplacedAfter stmt .sequence)
  | [] => .error .neverReturns

def dumpBody (param : String) : List Stmt → LinkM (DumpBody × List Stmt)
  | .openMapping :: rest => do
    let (is, rest) ← L.insertions param rest
    return (.mapping is, rest)
  | .openSequence :: rest => do
    let (es, rest) ← L.pushes param rest
    return (.sequence es, rest)
  | .returnValue e :: rest => do
    let e ← L.dumpExpr e [param]
    return (.value e, rest)
  | stmt :: _ => .error (.misplaced stmt .dump)
  | [] => .error .neverReturns

def dumpProcedure (p : Procedure) : LinkM DumpProcedure := do
  let param ← parameter p.signature
  let (body, stmts) ← L.dumpBody param p.body
  nothing stmts
  return { name := p.name, body }

end Linker
end TreeCodec
