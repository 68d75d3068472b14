import TreeCodec.Compile.Context
import TreeCodec.Text.Template

/-!
Wrappers make a compiler safe for types that contain themselves.

A compiler emits the body of one procedure. Wrapped, it gives a call of that procedure. Every target
is compiled once; a target that is met again, also within itself, gets a call of the procedure that
is already reserved for it.
-/
namespace TreeCodec

inductive FieldCompiler where
  | plain (compile : Descriptor → CompileM Unit)
  -- Reads the options too.
  | withOptions (compile : Descriptor → Options → CompileM Unit)

def FieldCompiler.run : FieldCompiler → Descriptor → CompileM Unit
  | plain compile, d => compile d
  | withOptions compile, d => do compile d (← read).options

/-- What tells the targets of a wrapper apart, and what their procedures are named for. -/
inductive GuardMode where
  -- The type, and the label of the descriptor.
  | origin
  -- The type arguments, and the position of the type parameter.
  | generic
  deriving DecidableEq, Repr

inductive WrapperScope where
  -- The wrapper begins the procedure around the compiler.
  | nested
  -- The compiler begins it itself. The name follows a template.
  | external (template : String)
  deriving DecidableEq, Repr

structure Wrapper where
  role : String
  compiler : FieldCompiler
  mode : GuardMode := .origin
  scope : WrapperScope := .nested

/-- A wrapper on its way: exactly one calling shape has to be given. -/
structure WrapperPlan where
  role : String
  plain : Option (Descriptor → CompileM Unit) := none
  withOptions : Option (Descriptor → Options → CompileM Unit) := none
  mode : GuardMode := .origin
  scope : WrapperScope := .nested

def WrapperPlan.build (p : WrapperPlan) : Except CodegenError Wrapper :=
  match p.plain, p.withOptions with
  | some f, none =>
    .ok { role := p.role, compiler := .plain f, mode := p.mode, scope := p.scope }
  | none, some f =>
    .ok { role := p.role, compiler := .withOptions f, mode := p.mode, scope := p.scope }
  | some _, some _ => .error (.ambiguousShape p.role 2)
  | none, none => .error (.ambiguousShape p.role 0)

namespace Wrapper

/-- The placeholder for the record's name in a template. -/
def placeholder : String := "\x7bcls_name\x7d"

variable (w : Wrapper)

/-- The part of the role that names procedures: `record` for `load_to_record`. -/
def token : String := String.ofList (Text.dropParts 2 w.role.toList)

def key (S : Schema) (d : Descriptor) : GuardKey :=
  match w.mode with
  | .origin => .ofOrigin d
  | .generic => .ofArguments S d

def procedureName (direction : Direction) (displayName : String) (d : Descriptor) : String :=
  match w.scope, w.mode with
  | .external template, _ => Text.fill template placeholder displayName
  | .nested, mode =>
    let target := match mode with
      | .generic => toString (d.position.getD 0)
      | .origin => d.label
    "_".intercalate ["", direction.text, displayName, w.token, target]

/-- The type that the procedure of a target is about. -/
def subject (S : Schema) (d : Descriptor) : Ty :=
  match w.mode with
  | .origin => d.ty
  | .generic => ((d.arguments S).head?.map Descriptor.ty).getD d.ty

/-- The procedure that converts a target, which is compiled first if it is new. The compiler sees
the target as the parameter of the procedure. -/
def procedureOf (d : Descriptor) : CompileM String := do
  let S ← CompileM.schema
  let key := w.key S d
  if let some name ← CompileM.lookup key then return name
  let displayName := (← get).displayName
  let name ← CompileM.reserve key (w.procedureName (← CompileM.direction) displayName d)
  let innerName := match w.mode with
    | .origin => Text.identifier (S.name d.ty)
    | .generic => displayName
  let (compiled, inner) ← CompileM.nested innerName name do
    CompileM.seed "cls" (.type (w.subject S d))
    let target := d.readFrom (← CompileM.param)
    match w.scope with
    | .external _ => w.compiler.run target
    | .nested => CompileM.procedure (w.compiler.run target)
  ofExcept compiled
  CompileM.merge inner.builder
  return name

/-- Calls the procedure of a target, reading it from where the descriptor says. -/
def invoke (d : Descriptor) : CompileM Expr := do
  let name ← w.procedureOf d
  return .call name d.value

end Wrapper
end TreeCodec
