import TreeCodec.Compile.Guard
import TreeCodec.Procedure.Builder

/-!
Build contexts: the state of a compilation.

Every procedure is compiled in a context of its own, with its own builder, locals and binders. The
guard and the log are those of the whole compilation.
-/
namespace TreeCodec

/-- What does not change during a compilation. -/
structure Settings where
  schema : Schema
  direction : Direction
  hooks : Hooks
  options : Options

structure Context where
  builder : Builder
  -- The name under which procedures are compiled here.
  displayName : String
  -- The name of the procedure that is compiled here, once it is reserved.
  procedureName : Option String := none
  -- Local names for the procedure that is about to be begun.
  seeds : Locals := []
  -- The number of variables named so far.
  binders : Nat := 1
  guard : Guard := {}
  log : List LogRecord := []

/-- A step of a compilation. The context that a step leaves is known also when it fails. -/
abbrev CompileM := ReaderT Settings (EStateM CodegenError Context)

namespace Context

/-- The context of a whole compilation. -/
def new (record : String) : Context := { builder := .new record, displayName := record }

/-- The context of a procedure compiled within another one. -/
def child (c : Context) (displayName name : String) : Context where
  builder := .new c.builder.record
  displayName := displayName
  procedureName := some name
  guard := c.guard
  log := c.log

/-- A context after one within it. -/
def rejoin (c inner : Context) : Context := { c with guard := inner.guard, log := inner.log }

end Context

namespace CompileM

def schema : CompileM Schema := do return (← read).schema

def direction : CompileM Direction := do return (← read).direction

def record (entries : List LogRecord) : CompileM Unit :=
  modify fun c => { c with log := c.log ++ entries }

/-- An operation of the builder of the context. -/
def onBuilder {α : Type} (op : BuilderM α) : CompileM α := fun _ c =>
  match op.run c.builder with
  | .ok a b => .ok a { c with builder := b }
  | .error e b => .error e { c with builder := b }

def emit (stmt : Stmt) : CompileM Unit := onBuilder (Builder.emit stmt)

def bind (name : String) (binding : Binding) : CompileM Unit :=
  onBuilder (Builder.bind name binding)

def merge (other : Builder) : CompileM Unit := onBuilder (Builder.merge other)

/-- Gives the procedure that is about to be begun a local name. -/
def seed (name : String) (binding : Binding) : CompileM Unit :=
  modify fun c => { c with seeds := Keyed.put name binding c.seeds }

/-- The step as data: what it gave or why it failed. -/
def attempt {α : Type} (step : CompileM α) : CompileM (Except CodegenError α) := fun s c =>
  match step s c with
  | .ok a c => .ok (.ok a) c
  | .error e c => .ok (.error e) c

/-- Runs a step in the context of a procedure of its own, and gives that context with the result. -/
def nested {α : Type} (displayName name : String) (step : CompileM α) :
    CompileM (Except CodegenError α × Context) := fun s c =>
  match step s (c.child displayName name) with
  | .ok a inner => .ok (.ok a, inner) (c.rejoin inner)
  | .error e inner => .ok (.error e, inner) (c.rejoin inner)

/-- Begins the procedure of the context, runs a step that emits its body, and seals it even when the
step failed. -/
def procedure (step : CompileM Unit) : CompileM Unit := do
  let c ← get
  let some name := c.procedureName | throw (.builderState .noNameReserved)
  set { c with seeds := [] }
  onBuilder (Builder.begin name (.of (← direction)) c.seeds)
  let emitted ← attempt step
  let sealed ← attempt (onBuilder Builder.finish)
  ofExcept emitted
  ofExcept sealed

/-- A variable that the procedure does not use yet. -/
def freshBinder : CompileM String := do
  modify fun c => { c with binders := c.binders + 1 }
  let letter := match ← direction with
    | .load => "v"
    | .dump => "o"
  return letter ++ toString (← get).binders

/-- The value that the procedure converts. -/
def param : CompileM Operand := do
  match ← direction with
  | .load => return .var "v1"
  | .dump => return .var "o"

/-- The hook of a type in the direction of the compilation. -/
def hook? (t : Ty) : CompileM (Option Binding) := do
  let s ← read
  match s.direction with
  | .load => return (s.hooks.load? t).map .loadHook
  | .dump => return (s.hooks.dump? t).map .dumpHook

/-- The procedure reserved for a target. -/
def lookup (key : GuardKey) : CompileM (Option String) := do
  let found := (← get).guard.lookup key
  record (Guard.lookupLog found)
  return found

def reserve (key : GuardKey) (wanted : String) : CompileM String := do
  let c ← get
  let (name, guard) := c.guard.reserve key wanted
  set { c with guard }
  record (Guard.reserveLog wanted name)
  return name

end CompileM
end TreeCodec
