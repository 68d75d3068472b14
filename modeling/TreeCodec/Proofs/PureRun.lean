import TreeCodec.Convert.Run

/-!
Runs that end with a value and leave no records.
-/
namespace TreeCodec.Run

variable {α β γ : Type}

@[simp]
theorem pure_bind (a : α) (f : α → Run β) : (pure a : Run α) >>= f = f a := rfl

@[simp]
theorem within_pure (a : α) (step : PathStep) : (pure a : Run α).within step = pure a := rfl

@[simp]
theorem ofExcept_ok (a : α) : ofExcept (.ok a) = (pure a : Run α) := rfl

theorem pure_injective {a b : α} (h : (pure a : Run α) = pure b) : a = b := by
  have ho := congrArg Run.outcome h
  exact Outcome.done.inj ho

theorem forEach_map (f : Nat → β → Run γ) (g : α → β) (i : Nat) (as : List α) :
    forEach f i (as.map g) = forEach (fun i a => f i (g a)) i as := by
  induction as generalizing i with
  | nil => rfl
  | cons a as ih => simp only [List.map_cons, forEach, ih]

theorem forEach_eq_pure {f : Nat → α → Run β} {g : α → β} {as : List α} {i : Nat}
    (h : ∀ j a, as[j]? = some a → f (i + j) a = pure (g a)) :
    forEach f i as = pure (as.map g) := by
  induction as generalizing i with
  | nil => rfl
  | cons a as ih =>
    have ha : f i a = pure (g a) := h 0 a rfl
    have has : forEach f (i + 1) as = pure (as.map g) := by
      refine ih fun j b hb => ?_
      rw [Nat.add_assoc, Nat.add_comm 1 j]
      exact h (j + 1) b hb
    simp only [forEach, ha, has, pure_bind, List.map_cons]

end TreeCodec.Run
