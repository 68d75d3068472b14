import TreeCodec.Proofs.Approximation
import TreeCodec.Proofs.PureRun

/-!
Runs that end alike: both fail with one error, or both succeed with values in a relation.
-/
namespace TreeCodec

variable {α β γ δ : Type}

inductive Outcome.EndsAlike (R : α → β → Prop) : Outcome α → Outcome β → Prop
  | done {a : α} {b : β} : R a b → EndsAlike R (.done a) (.done b)
  | failed (e : ConversionError) : EndsAlike R (.failed e) (.failed e)

namespace Outcome.EndsAlike

variable {R R' : α → β → Prop} {o : Outcome α} {o' : Outcome β}

theorem finished (h : o.EndsAlike R o') : o.Finished ∧ o'.Finished := by
  cases h <;> exact ⟨nofun, nofun⟩

theorem imp (h : o.EndsAlike R o') (hr : ∀ a b, R a b → R' a b) : o.EndsAlike R' o' := by
  cases h with
  | done h => exact .done (hr _ _ h)
  | failed e => exact .failed e

theorem mapError (h : o.EndsAlike R o') (f : ConversionError → ConversionError) :
    (o.mapError f).EndsAlike R (o'.mapError f) := by
  cases h with
  | done h => exact .done h
  | failed e => exact .failed (f e)

end Outcome.EndsAlike

namespace Run

def EndsAlike (R : α → β → Prop) (x : Run α) (y : Run β) : Prop :=
  x.outcome.EndsAlike R y.outcome

namespace EndsAlike

variable {R R' : α → β → Prop} {Q : γ → δ → Prop} {x : Run α} {y : Run β}

theorem pure {a : α} {b : β} (h : R a b) : EndsAlike R (Pure.pure a) (Pure.pure b) :=
  .done h

theorem fault (f : Fault) : EndsAlike R (Run.fault f) (Run.fault f) :=
  .failed _

theorem finished (h : x.EndsAlike R y) : x.Finished ∧ y.Finished :=
  Outcome.EndsAlike.finished h

theorem failed_or_done (h : x.EndsAlike R y) :
    (∃ e, x.outcome = .failed e ∧ y.outcome = .failed e) ∨
      ∃ a b, x.outcome = .done a ∧ y.outcome = .done b ∧ R a b := by
  unfold EndsAlike at h
  generalize x.outcome = o at h ⊢
  generalize y.outcome = o' at h ⊢
  cases h with
  | done h => exact .inr ⟨_, _, rfl, rfl, h⟩
  | failed e => exact .inl ⟨e, rfl, rfl⟩

theorem imp (h : x.EndsAlike R y) (hr : ∀ a b, R a b → R' a b) : x.EndsAlike R' y :=
  Outcome.EndsAlike.imp h hr

theorem bind {f : α → Run γ} {g : β → Run δ} (h : x.EndsAlike R y)
    (hf : ∀ a b, R a b → (f a).EndsAlike Q (g b)) : (x >>= f).EndsAlike Q (y >>= g) := by
  unfold EndsAlike at *
  rw [outcome_bind, outcome_bind]
  generalize x.outcome = o at h
  generalize y.outcome = o' at h
  cases h with
  | done h => exact hf _ _ h
  | failed e => exact .failed e

-- Both runs read the same thing first.
theorem ofExcept_bind {e : Except SchemaError α} {f : α → Run γ} {g : α → Run δ}
    (h : ∀ a, e = .ok a → (f a).EndsAlike Q (g a)) :
    (Run.ofExcept e >>= f).EndsAlike Q (Run.ofExcept e >>= g) := by
  cases e with
  | ok a => exact h a rfl
  | error => exact .failed _

theorem within (h : x.EndsAlike R y) (step : PathStep) :
    (x.within step).EndsAlike R (y.within step) :=
  h.mapError _

theorem through (h : x.EndsAlike R y) (name : String) :
    (x.through name).EndsAlike R (y.through name) :=
  h.mapError _

-- Runs over one list give rows, one for each item, with what either run gives for it.
theorem forEach {ρ : Type} (item : ρ → α) (left : ρ → β) (right : ρ → γ) {P : ρ → Prop}
    {f : Nat → α → Run β} {g : Nat → α → Run γ} {as : List α}
    (h : ∀ a ∈ as, ∀ i, (f i a).EndsAlike
      (fun b c => ∃ r, item r = a ∧ left r = b ∧ right r = c ∧ P r) (g i a)) (i : Nat) :
    (Run.forEach f i as).EndsAlike
      (fun bs cs => ∃ rows : List ρ, rows.map item = as ∧ rows.map left = bs ∧
        rows.map right = cs ∧ ∀ r ∈ rows, P r)
      (Run.forEach g i as) := by
  induction as generalizing i with
  | nil => exact pure ⟨[], rfl, rfl, rfl, nofun⟩
  | cons a as ih =>
    have ⟨ha, has⟩ := List.forall_mem_cons.mp h
    refine (ha i).bind ?_
    rintro _ _ ⟨r, rfl, rfl, rfl, hr⟩
    refine (ih has (i + 1)).bind ?_
    rintro _ _ ⟨rows, rfl, rfl, rfl, hrows⟩
    exact pure ⟨r :: rows, rfl, rfl, rfl, List.forall_mem_cons.mpr ⟨hr, hrows⟩⟩

end EndsAlike
end Run
end TreeCodec
