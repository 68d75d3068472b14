import TreeCodec.Convert.Dump
import TreeCodec.Convert.Load
import TreeCodec.Procedure.Syntax

/-!
What procedures mean, read as they are written.

Statements are run one after the other, with an environment that says what each variable stands for;
of equal names the innermost binder counts. Helpers, types and defaults are looked up among the
local names, and called procedures by their names and directions. What does not resolve has no
meaning, and a run that comes to it does not end.
-/
namespace TreeCodec.Meaning

/-- Variables with what they stand for, innermost first. -/
abbrev Env (α : Type) := List (String × α)

def stuck {α : Type} : Run α := Run.unfinished

variable (S : Schema)

/-- What a variable stands for. -/
def lookup {α : Type} (env : Env α) (name : String) : Run α :=
  match Keyed.get? name env with
  | some a => pure a
  | none => stuck

def typeOf? (locals : Locals) (name : String) : Option Ty :=
  match Keyed.get? name locals with
  | some (.type t) => some t
  | _ => none

/-- The type bound to a helper, as far as it is of the kind that a view is for. -/
def viewOf? {α : Type} (locals : Locals) (helper : String) (view : Ty → Except KindMismatch α) :
    Option (Ty × α) := do
  let t ← typeOf? locals helper
  match view t with
  | .ok a => some (t, a)
  | .error _ => none

/-! ## Loading -/

def readTree (env : Env (Option Tree)) : Operand → Run (Option Tree)
  | .var x => lookup env x
  | .key x key => do Load.entry key (← lookup env x)
  | .item x index => do Load.element index (← lookup env x)
  | .attr .. | .element .. => stuck

/-- The run with its error seen from the variable that an operand reads from. -/
def locate {α : Type} (r : Run α) : Operand → Run α
  | .var _ => r
  | .key _ key => r.within (.key key)
  | .attr _ _ _ name => r.within (.key name)
  | .item _ index | .element _ _ index => r.within (.index index)

/-- Loads what an operand reads. -/
def feedTree (env : Env (Option Tree)) (arg : Operand) (rule : Load.Rule) : Run Value :=
  locate (do rule (← readTree env arg)) arg

def loadLeaf (locals : Locals) (helper : String) : Load.Rule :=
  match Keyed.get? helper locals with
  | some (.type t) =>
    match S.shape t with
    | .scalar s => Load.scalar s
    | .dynamic => Load.tree t
    | _ => fun _ => stuck
  | some (.loadHook h) => Load.hook h
  | _ => fun _ => stuck

mutual

def loadExpr (locals : Locals) (callee : String → Load.Rule) :
    Expr → Env (Option Tree) → Run Value
  | .leaf helper arg, env => feedTree env arg (loadLeaf S locals helper)
  | .call name arg, env => feedTree env arg (callee name)
  | .optional helper arg x e, env =>
    match viewOf? locals helper S.option with
    | some (_, t) =>
      feedTree env arg (Load.optional S t fun v => loadExpr locals callee e ((x, v) :: env))
    | none => stuck
  | .boxed helper arg x e, env =>
    match viewOf? locals helper S.box with
    | some (_, t) =>
      feedTree env arg (Load.boxed S t fun v => loadExpr locals callee e ((x, v) :: env))
    | none => stuck
  | .list helper arg x e, env =>
    match viewOf? locals helper S.item with
    | some (t, item) =>
      feedTree env arg (Load.list S t item fun v => loadExpr locals callee e ((x, v) :: env))
    | none => stuck
  | .map helper arg x k y e, env =>
    match viewOf? locals helper S.entry with
    | some (t, kind, key, value) =>
      feedTree env arg (Load.map S t kind key value
        (fun v => loadExpr locals callee k ((x, v) :: env))
        fun v => loadExpr locals callee e ((y, v) :: env))
    | none => stuck
  | .union helper arg x es, env =>
    match viewOf? locals helper S.variants with
    | some (t, variants) =>
      feedTree env arg (Load.union S t variants (loadExprs locals callee x es env))
    | none => stuck

/-- The rules of alternatives, all over one variable. -/
def loadExprs (locals : Locals) (callee : String → Load.Rule) (x : String) :
    List Expr → Env (Option Tree) → List Load.Rule
  | [], _ => []
  | e :: es, env =>
    (fun v => loadExpr locals callee e ((x, v) :: env)) :: loadExprs locals callee x es env

end

/-- Fills a slot: from the default if there is one and the operand is absent. -/
def assigned (locals : Locals) (callee : String → Load.Rule) (env : Env (Option Tree))
    (arg : Operand) (e : Expr) : Option String → Run Value
  | none => do
    let _ ← locate (readTree env arg) arg
    loadExpr S locals callee e env
  | some name =>
    match Keyed.get? name locals with
    | some (.default v) => do
      match ← locate (readTree env arg) arg with
      | none => pure v
      | some _ => loadExpr S locals callee e env
    | _ => stuck

/-- Runs the statements of a load procedure. Slots are filled in the order of their numbers. -/
def loadBody (locals : Locals) (callee : String → Load.Rule) (env : Env (Option Tree))
    (slots : List Value) : List Stmt → Run Value
  | .beginMapping arg :: rest => do
    Load.checkMapping (← readTree env arg)
    loadBody locals callee env slots rest
  | .beginSequence arg min len :: rest => do
    Load.checkSequence min len (← readTree env arg)
    loadBody locals callee env slots rest
  | .rejectUnknownKeys arg keys :: rest => do
    Load.checkKeys keys (← readTree env arg)
    loadBody locals callee env slots rest
  | .assign slot arg e default :: rest => do
    let v ← assigned S locals callee env arg e default
    if slot = slots.length then loadBody locals callee env (slots ++ [v]) rest else stuck
  | .construct cls :: _ =>
    match typeOf? locals cls with
    | some t => Run.ofExcept (S.construct t slots)
    | none => stuck
  | .returnValue e :: _ => loadExpr S locals callee e env
  | _ => stuck

/-- A procedure that only returns an expression leaves it to the expression what an absent tree is.
-/
def passesAbsent (p : Procedure) : Bool :=
  match p.body with
  | [.returnValue _] => true
  | _ => false

/-- Runs a load procedure on a tree that may be absent. The default stands in for an absent tree. -/
def runLoad (callee : String → Load.Rule) (p : Procedure) (input : Option Tree)
    (default : Option Value) : Run Value :=
  match p.signature.valueParam? with
  | none => stuck
  | some x =>
    match input, default with
    | none, some v => pure v
    | input, _ =>
      if input.isNone ∧ ¬ passesAbsent p then Run.fault .missing
      else (loadBody S p.locals callee [(x, input)] [] p.body).through p.name

/-! ## Dumping -/

def readValue (locals : Locals) (env : Env Value) : Operand → Run Value
  | .var x => lookup env x
  | .attr x owner index _ =>
    match typeOf? locals owner with
    | some t => do Dump.part (S.getField t index (← lookup env x))
    | none => stuck
  | .element x owner index =>
    match typeOf? locals owner with
    | some t => do Dump.part (S.getElement t index (← lookup env x))
    | none => stuck
  | .key .. | .item .. => stuck

/-- Dumps what an operand reads. -/
def feedValue (locals : Locals) (env : Env Value) (arg : Operand) (rule : Dump.Rule) : Run Tree :=
  locate (do rule (← readValue S locals env arg)) arg

def dumpLeaf (locals : Locals) (helper : String) : Dump.Rule :=
  match Keyed.get? helper locals with
  | some (.type t) =>
    match S.shape t with
    | .scalar s => Dump.scalar s
    | .dynamic => Dump.tree S t
    | _ => fun _ => stuck
  | some (.dumpHook h) => Dump.hook h
  | _ => fun _ => stuck

mutual

def dumpExpr (locals : Locals) (callee : String → Dump.Rule) : Expr → Env Value → Run Tree
  | .leaf helper arg, env => feedValue S locals env arg (dumpLeaf S locals helper)
  | .call name arg, env => feedValue S locals env arg (callee name)
  | .optional helper arg x e, env =>
    match viewOf? locals helper S.option with
    | some (t, _) => feedValue S locals env arg
        (Dump.optional S t fun v => dumpExpr locals callee e ((x, v) :: env))
    | none => stuck
  | .boxed helper arg x e, env =>
    match viewOf? locals helper S.box with
    | some (t, _) => feedValue S locals env arg
        (Dump.boxed S t fun v => dumpExpr locals callee e ((x, v) :: env))
    | none => stuck
  | .list helper arg x e, env =>
    match viewOf? locals helper S.item with
    | some (t, _) => feedValue S locals env arg
        (Dump.list S t fun v => dumpExpr locals callee e ((x, v) :: env))
    | none => stuck
  | .map helper arg x k y e, env =>
    match viewOf? locals helper S.entry with
    | some (t, kind, _, _) => feedValue S locals env arg
        (Dump.map S t kind (fun v => dumpExpr locals callee k ((x, v) :: env))
          fun v => dumpExpr locals callee e ((y, v) :: env))
    | none => stuck
  | .union helper arg x es, env =>
    match viewOf? locals helper S.variants with
    | some (t, _) => feedValue S locals env arg (Dump.union S t (dumpExprs locals callee x es env))
    | none => stuck

def dumpExprs (locals : Locals) (callee : String → Dump.Rule) (x : String) :
    List Expr → Env Value → List Dump.Rule
  | [], _ => []
  | e :: es, env =>
    (fun v => dumpExpr locals callee e ((x, v) :: env)) :: dumpExprs locals callee x es env

end

/-- Runs the statements of a dump procedure, with the output as far as it is written. -/
def dumpBody (locals : Locals) (callee : String → Dump.Rule) (env : Env Value)
    (output : Option Tree) : List Stmt → Run Tree
  | .openMapping :: rest => dumpBody locals callee env (some (.object [])) rest
  | .openSequence :: rest => dumpBody locals callee env (some (.array [])) rest
  | .insert key e omitNull :: rest =>
    match output with
    | some (.object entries) => do
      let t ← dumpExpr S locals callee e env
      let entries := if omitNull && t = .null then entries else Keyed.put key t entries
      dumpBody locals callee env (some (.object entries)) rest
    | _ => stuck
  | .push e :: rest =>
    match output with
    | some (.array items) => do
      let t ← dumpExpr S locals callee e env
      dumpBody locals callee env (some (.array (items ++ [t]))) rest
    | _ => stuck
  | .returnOutput :: _ =>
    match output with
    | some t => pure t
    | none => stuck
  | .returnValue e :: _ => dumpExpr S locals callee e env
  | _ => stuck

def runDump (callee : String → Dump.Rule) (p : Procedure) (v : Value) : Run Tree :=
  match p.signature.valueParam? with
  | none => stuck
  | some x => (dumpBody S p.locals callee [(x, v)] none p.body).through p.name

/-! ## Calls -/

/-- The procedure of a name and a direction. -/
def procedure? (procedures : List Procedure) (d : Direction) (name : String) : Option Procedure :=
  procedures.find? fun p => p.name = name ∧ p.signature.direction = d

/-- Calls a load procedure by its name, nesting at most `budget` calls. -/
def callLoad (procedures : List Procedure) : Nat → String → Load.Rule
  | 0, _, _ => stuck
  | budget + 1, name, input =>
    match procedure? procedures .load name with
    | some p => runLoad S (callLoad procedures budget) p input none
    | none => stuck

def callDump (procedures : List Procedure) : Nat → String → Dump.Rule
  | 0, _, _ => stuck
  | budget + 1, name, v =>
    match procedure? procedures .dump name with
    | some p => runDump S (callDump procedures budget) p v
    | none => stuck

end TreeCodec.Meaning
