import TreeCodec.Proofs.PureRun

/-!
Runs that fail: what is known of their errors.
-/
namespace TreeCodec

-- An error of a run has a property.
def Run.FailsWith {α : Type} (E : ConversionError → Prop) (x : Run α) : Prop :=
  ∀ e, x.outcome = .failed e → E e

namespace Run.FailsWith

variable {α β : Type} {E : ConversionError → Prop} {x : Run α}

theorem of_done {a : α} (h : x.outcome = .done a) : x.FailsWith E := by
  intro e he
  cases h.symm.trans he

theorem pure (a : α) : (Pure.pure a : Run α).FailsWith E :=
  of_done rfl

theorem fault {f : Fault} (h : E { fault := f }) : (Run.fault f : Run α).FailsWith E := by
  intro e he
  cases he
  exact h

theorem ofExcept {y : Except SchemaError α} (h : ∀ e, E { fault := .schema e }) :
    (Run.ofExcept y).FailsWith E := by
  cases y with
  | ok a => exact pure a
  | error e => exact fault (h e)

theorem unfinished : (Run.unfinished : Run α).FailsWith E :=
  nofun

theorem bind {f : α → Run β} (h : x.FailsWith E)
    (hf : ∀ a, x.outcome = .done a → (f a).FailsWith E) : (x >>= f).FailsWith E := by
  intro e he
  rw [outcome_bind] at he
  cases hx : x.outcome with
  | done a => exact hf a hx e (by simpa [hx, Outcome.bind] using he)
  | failed e' => exact h e (by simpa [hx, Outcome.bind] using he)
  | unfinished => simp [hx, Outcome.bind] at he

theorem ofExcept_bind {y : Except SchemaError α} {f : α → Run β}
    (hE : ∀ e, E { fault := .schema e }) (hf : ∀ a, y = .ok a → (f a).FailsWith E) :
    (Run.ofExcept y >>= f).FailsWith E := by
  cases y with
  | ok a => exact hf a rfl
  | error e => exact .fault (hE e)

theorem mapError {g : ConversionError → ConversionError} (h : x.FailsWith fun e => E (g e)) :
    ({ x with outcome := x.outcome.mapError g } : Run α).FailsWith E := by
  intro e he
  dsimp only at he
  cases hx : x.outcome with
  | failed e' =>
    rw [hx] at he
    cases he
    exact h e' hx
  | done | unfinished => simp [hx, Outcome.mapError] at he

theorem within {step : PathStep} (h : x.FailsWith fun e => E (e.within step)) :
    (x.within step).FailsWith E :=
  mapError h

theorem through {name : String} (h : x.FailsWith fun e => E (e.through name)) :
    (x.through name).FailsWith E :=
  mapError h

theorem imp {E' : ConversionError → Prop} (h : x.FailsWith E) (hE : ∀ e, E e → E' e) :
    x.FailsWith E' :=
  fun e he => hE e <| h e he

theorem forEach {f : Nat → α → Run β} {as : List α} (i : Nat)
    (h : ∀ k a, as[k]? = some a → (f (i + k) a).FailsWith E) :
    (Run.forEach f i as).FailsWith E := by
  induction as generalizing i with
  | nil => exact pure _
  | cons a as ih =>
    refine (h 0 a rfl).bind fun _ _ => (ih (i + 1) fun k b hk => ?_).bind fun _ _ => pure _
    rw [Nat.add_right_comm]
    exact h (k + 1) b hk

end Run.FailsWith

-- What went wrong, and where.
def Outcome.failure? {α : Type} : Outcome α → Option (Fault × List PathStep)
  | failed e => some (e.fault, e.path)
  | _ => none

theorem Outcome.exists_failed_of_failure? {α : Type} {o : Outcome α} {f : Fault}
    {p : List PathStep} (h : o.failure? = some (f, p)) :
    ∃ e, o = failed e ∧ e.fault = f ∧ e.path = p := by
  cases o with
  | failed e =>
    cases h
    exact ⟨e, rfl, rfl, rfl⟩
  | done | unfinished => nomatch h

end TreeCodec
