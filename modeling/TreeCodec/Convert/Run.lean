import TreeCodec.Convert.Error
import TreeCodec.Log

/-!
Runs of converters.

A run ends with a value or with an error, or it is cut off because it called too many procedures
inside one another. Either way it leaves log records. An error can be caught, and the records of
what was tried stay.
-/
namespace TreeCodec

inductive Outcome (α : Type) where
  | done (a : α)
  | failed (e : ConversionError)
  | unfinished
  deriving DecidableEq

structure Run (α : Type) where
  outcome : Outcome α
  log : List LogRecord := []

namespace Outcome

variable {α β : Type}

def bind (x : Outcome α) (f : α → Outcome β) : Outcome β :=
  match x with
  | done a => f a
  | failed e => failed e
  | unfinished => unfinished

def mapError (f : ConversionError → ConversionError) : Outcome α → Outcome α
  | failed e => failed (f e)
  | o => o

end Outcome

namespace Run

variable {α β : Type}

def fail (e : ConversionError) : Run α := ⟨.failed e, []⟩

def fault (f : Fault) : Run α := fail { fault := f }

/-- A run that was cut off. -/
def unfinished : Run α := ⟨.unfinished, []⟩

protected def bind (x : Run α) (f : α → Run β) : Run β :=
  match x.outcome with
  | .done a => ⟨(f a).outcome, x.log ++ (f a).log⟩
  | .failed e => ⟨.failed e, x.log⟩
  | .unfinished => ⟨.unfinished, x.log⟩

instance : Monad Run where
  pure a := ⟨.done a, []⟩
  bind := Run.bind

@[simp] theorem outcome_pure (a : α) : (pure a : Run α).outcome = .done a := rfl

@[simp] theorem outcome_bind (x : Run α) (f : α → Run β) :
    (x >>= f).outcome = x.outcome.bind fun a => (f a).outcome := by
  show (Run.bind x f).outcome = _
  cases h : x.outcome <;> simp [Run.bind, Outcome.bind, h]

def ofExcept : Except SchemaError α → Run α
  | .ok a => pure a
  | .error e => fault (.schema e)

/-- The run with its error seen from one step further out. -/
def within (step : PathStep) (x : Run α) : Run α :=
  { x with outcome := x.outcome.mapError (·.within step) }

/-- The run of the body of a procedure. -/
def through (procedure : String) (x : Run α) : Run α :=
  { x with outcome := x.outcome.mapError (·.through procedure) }

@[simp] theorem outcome_within (s : PathStep) (x : Run α) :
    (x.within s).outcome = x.outcome.mapError (·.within s) := rfl

@[simp] theorem outcome_through (p : String) (x : Run α) :
    (x.through p).outcome = x.outcome.mapError (·.through p) := rfl

/-- Runs `f` on every item of a list, giving it the position of the item. -/
def forEach (f : Nat → α → Run β) (i : Nat) : List α → Run (List β)
  | [] => pure []
  | a :: as => do
    let b ← f i a
    let bs ← forEach f (i + 1) as
    return b :: bs

end Run
end TreeCodec
