import TreeCodec.Compile.Wrapper

/-!
The compilers.

Scalars, trees, hooked types and containers are converted in place, by an expression. Records,
unions and tuples have procedures of their own, and so has every type that a field with a type
parameter is converted as.
-/
namespace TreeCodec

/-- How the targets that have procedures of their own are called. -/
structure Targets where
  record : Descriptor → CompileM Expr
  union : Descriptor → CompileM Expr
  tuple : Descriptor → CompileM Expr
  slot : Descriptor → CompileM Expr

namespace Compile

open CompileM

def liftKind {α : Type} : Except KindMismatch α → CompileM α
  | .ok a => pure a
  | .error e => throw (.kind e)

/-- Binds a helper for a type, named for the kind of helper and the type. -/
def bindHelper (kind : String) (t : Ty) : CompileM String := do
  let S ← schema
  let helper := kind ++ "_" ++ Text.identifier (S.name t)
  bind helper (.type t)
  return helper

/-- A value within another one, under a new binder. -/
def inner (t : Ty) (parent : Descriptor) : CompileM (String × Descriptor) := do
  let S ← schema
  let binder ← freshBinder
  return (binder, (Descriptor.new S t (.var binder)).labelled parent.label)

/-- The hook of a type as an expression, if there is one. -/
def hooked (t : Ty) (arg : Operand) : CompileM (Option Expr) := do
  match ← hook? t with
  | some binding =>
    let S ← schema
    let helper := "hook_" ++ Text.identifier (S.name t)
    bind helper binding
    return some (.leaf helper arg)
  | none => return none

def leaf (t : Ty) (arg : Operand) : CompileM Expr := do
  let S ← schema
  let helper := "as_" ++ Text.identifier (S.ident t)
  bind helper (.type t)
  return .leaf helper arg

variable (targets : Targets)

/-- The expression for a value described by `d`, whose type is `t`. -/
def typed (t : Ty) (d : Descriptor) : CompileM Expr := do
  if let some e ← hooked t d.value then return e
  match t with
  | .scalar _ | .dynamic => leaf t d.value
  | .optional u =>
    let helper ← bindHelper "optional" t
    let (binder, e) ← inner u d
    return .optional helper d.value binder (← typed u e)
  | .boxed u =>
    let helper ← bindHelper "boxed" t
    let (binder, e) ← inner u d
    return .boxed helper d.value binder (← typed u e)
  | .list _ u =>
    let helper ← bindHelper "list" t
    let (binder, e) ← inner u d
    return .list helper d.value binder (← typed u e)
  | .map _ u v =>
    let helper ← bindHelper "map" t
    let (keyBinder, k) ← inner u d
    let key ← typed u k
    let (valueBinder, e) ← inner v d
    let value ← typed v e
    return .map helper d.value keyBinder key valueBinder value
  | .tuple _ => targets.tuple d
  | .declared _ =>
    let S ← schema
    match S.kind t with
    | .record => targets.record d
    | .union => targets.union d
    | .dynamic => leaf t d.value
    | _ => throw (.unsupported (S.path t) (← direction))

def value (d : Descriptor) : CompileM Expr := typed targets d.ty d

/-- The expression for a field that is read from `arg`. A field declared with a type parameter is
converted by the procedure of its type. -/
def field (f : Field) (arg : Operand) : CompileM Expr := do
  let S ← schema
  let d := (Descriptor.new S f.ty arg).labelled f.name
  match f.param with
  | some index => targets.slot ((d.positioned index).withArguments [d])
  | none => value targets d

/-- Loads a field into a slot, from its default if it has one and is absent. -/
def assignField (slot : Nat) (f : Field) (arg : Operand) : CompileM Unit := do
  let e ← field targets f arg
  match f.default with
  | some v =>
    let name := "default_" ++ Text.identifier f.name
    bind name (.default v)
    emit (.assign slot arg e (some name))
  | none => emit (.assign slot arg e none)

def assignFields (source : Nat → Field → Operand) (slot : Nat) : List Field → CompileM Unit
  | [] => pure ()
  | f :: fs => do
    assignField targets slot f (source slot f)
    assignFields source (slot + 1) fs

/-- A record is loaded from an object, or from an array if it is positional. -/
def loadRecord (d : Descriptor) (options : Options) : CompileM Unit := do
  let S ← schema
  let (fields, positional) ← liftKind (S.fields d.ty)
  let base := d.value.base
  if positional then
    emit (.beginSequence d.value (requiredLength fields) fields.length)
    assignFields targets (fun i _ => .item base i) 0 fields
  else
    emit (.beginMapping d.value)
    if options.denyUnknownKeys then emit (.rejectUnknownKeys d.value (fields.map Field.key))
    assignFields targets (fun _ f => .key base f.key) 0 fields
  emit (.construct "cls")

def assignElements (label base : String) (slot : Nat) : List Ty → CompileM Unit
  | [] => pure ()
  | t :: ts => do
    let S ← schema
    let arg := Operand.item base slot
    let e ← value targets ((Descriptor.new S t arg).labelled label)
    emit (.assign slot arg e none)
    assignElements label base (slot + 1) ts

def loadTuple (d : Descriptor) : CompileM Unit := do
  let S ← schema
  let elements ← liftKind (S.elements d.ty)
  emit (.beginSequence d.value elements.length elements.length)
  assignElements targets d.label d.value.base 0 elements
  emit (.construct "cls")

def dumpFields (base : String) (positional omitNull : Bool) (index : Nat) :
    List Field → CompileM Unit
  | [] => pure ()
  | f :: fs => do
    let e ← field targets f (.attr base "cls" index f.name)
    emit (if positional then .push e else .insert f.key e omitNull)
    dumpFields base positional omitNull (index + 1) fs

def dumpRecord (d : Descriptor) (options : Options) : CompileM Unit := do
  let S ← schema
  let (fields, positional) ← liftKind (S.fields d.ty)
  emit (if positional then .openSequence else .openMapping)
  dumpFields targets d.value.base positional options.omitNull 0 fields
  emit .returnOutput

def dumpElements (label base : String) (index : Nat) : List Ty → CompileM Unit
  | [] => pure ()
  | t :: ts => do
    let S ← schema
    let d := (Descriptor.new S t (.element base "cls" index)).labelled label
    emit (.push (← value targets d))
    dumpElements label base (index + 1) ts

def dumpTuple (d : Descriptor) : CompileM Unit := do
  let S ← schema
  let elements ← liftKind (S.elements d.ty)
  emit .openSequence
  dumpElements targets d.label d.value.base 0 elements
  emit .returnOutput

def record (d : Descriptor) (options : Options) : CompileM Unit := do
  match ← direction with
  | .load => loadRecord targets d options
  | .dump => dumpRecord targets d options

def tuple (d : Descriptor) : CompileM Unit := do
  match ← direction with
  | .load => loadTuple targets d
  | .dump => dumpTuple targets d

def alternatives (binder : String) : List Variant → CompileM (List Expr)
  | [] => return []
  | v :: vs => do
    let S ← schema
    let e ← value targets ((Descriptor.new S v.ty (.var binder)).labelled v.name)
    let es ← alternatives binder vs
    return e :: es

/-- A union is one alternative for each variant, in order. -/
def union (d : Descriptor) : CompileM Unit := do
  let S ← schema
  let variants ← liftKind (S.variants d.ty)
  let helper ← bindHelper "union" d.ty
  let binder ← freshBinder
  let es ← alternatives targets binder variants
  emit (.returnValue (.union helper d.value binder es))

/-- A field with a type parameter is converted as its type argument. -/
def slot (d : Descriptor) : CompileM Unit := do
  let S ← schema
  let target := match (d.arguments S).head? with
    | some argument => argument.readFrom d.value
    | none => d
  emit (.returnValue (← value targets target))

/-- The entry procedure. It holds the body of a record, a tuple or a union itself. -/
def root (d : Descriptor) : CompileM Unit := do
  let S ← schema
  let options := (← read).options
  let hook ← hook? d.ty
  procedure do
    match S.kind d.ty, hook with
    | .record, none => record targets d options
    | .tuple, none => tuple targets d
    | .union, none => union targets d
    | _, _ => emit (.returnValue (← value targets d))

end Compile

/-- The wrapped compilers of one direction. -/
structure WrapperSet where
  root : Wrapper
  record : Wrapper
  union : Wrapper
  tuple : Wrapper
  slot : Wrapper

namespace WrapperSet

open Compile

private def role (d : Direction) (suffix : String) : String :=
  match d with
  | .load => "load_to_" ++ suffix
  | .dump => "dump_from_" ++ suffix

/-- The compilers for a direction, given how they call one another. -/
def ofTargets (d : Direction) (targets : Targets) : WrapperSet where
  root :=
    { role := d.text ++ "_root", compiler := .plain (Compile.root targets),
      scope := .external (d.text ++ "_" ++ Wrapper.placeholder) }
  record := { role := role d "record", compiler := .withOptions (Compile.record targets) }
  union := { role := role d "union", compiler := .plain (Compile.union targets) }
  tuple := { role := role d "tuple", compiler := .plain (Compile.tuple targets) }
  slot := { role := role d "slot", compiler := .plain (Compile.slot targets), mode := .generic }

/-- Calls of the targets through their wrappers. -/
def targets (ws : WrapperSet) : Targets where
  record := ws.record.invoke
  union := ws.union.invoke
  tuple := ws.tuple.invoke
  slot := ws.slot.invoke

private def exhausted : Targets :=
  let stop := fun _ => throw .tooDeep
  ⟨stop, stop, stop, stop⟩

/-- The compilers, where at most `depth` targets may be compiled inside one another. -/
def ofDepth (d : Direction) : Nat → WrapperSet
  | 0 => ofTargets d exhausted
  | depth + 1 => ofTargets d (ofDepth d depth).targets

/-- The types that can be met from `roots`. -/
def reachable (S : Schema) (roots : List Ty) : List Ty :=
  (roots.flatMap Ty.parts ++ S.declaredParts).eraseDups

/-- The compilers for types built from `roots` and the declarations. Every type is compiled at most
twice, as itself and as the argument of a type parameter; one more target is allowed for a
descriptor that was given other arguments. -/
def new (S : Schema) (d : Direction) (roots : List Ty) : WrapperSet :=
  ofDepth d (2 * (reachable S roots).length + 1)

end WrapperSet
end TreeCodec
