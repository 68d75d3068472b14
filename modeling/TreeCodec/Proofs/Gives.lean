import Mathlib.Data.List.Forall2
import TreeCodec.Proofs.PureRun

/-!
What runs end with.
-/
namespace TreeCodec.Run

variable {α β : Type} {P Q : α → Prop} {x : Run α}

-- A run that ends with a value that has a property.
def Gives (x : Run α) (P : α → Prop) : Prop :=
  ∃ a, x.outcome = .done a ∧ P a

@[simp]
theorem gives_pure {a : α} : (pure a : Run α).Gives P ↔ P a := by
  simp [Gives]

@[simp]
theorem gives_bind {f : α → Run β} {P : β → Prop} :
    (x >>= f).Gives P ↔ x.Gives fun a => (f a).Gives P := by
  simp only [Gives, outcome_bind]
  cases x.outcome <;> simp [Outcome.bind]

@[simp]
theorem gives_within {step : PathStep} : (x.within step).Gives P ↔ x.Gives P := by
  simp only [Gives, outcome_within]
  cases x.outcome <;> simp [Outcome.mapError]

@[simp]
theorem gives_through {name : String} : (x.through name).Gives P ↔ x.Gives P := by
  simp only [Gives, outcome_through]
  cases x.outcome <;> simp [Outcome.mapError]

@[simp]
theorem gives_ofExcept {x : Except SchemaError α} :
    (ofExcept x).Gives P ↔ ∃ a, x = .ok a ∧ P a := by
  cases x <;> simp [Gives, ofExcept, fault, fail]

theorem gives_eq_iff {a : α} : (x.Gives fun b => b = a) ↔ x.outcome = .done a := by
  simp [Gives]

theorem gives_congr (h : ∀ a, x.outcome = .done a → (P a ↔ Q a)) : x.Gives P ↔ x.Gives Q :=
  exists_congr fun a => and_congr_right (h a)

theorem gives_and_left {p : Prop} : (x.Gives fun a => p ∧ P a) ↔ p ∧ x.Gives P := by
  simp only [Gives, and_left_comm, exists_and_left]

theorem gives_and_right {p : Prop} : (x.Gives fun a => P a ∧ p) ↔ x.Gives P ∧ p := by
  simp only [Gives, ← and_assoc, exists_and_right]

-- A run over a list succeeds exactly if the runs over the items do.
theorem forEach_done_iff {f : α → Run β} {as : List α} {bs : List β} (i : Nat) :
    (forEach (fun _ => f) i as).outcome = .done bs ↔
      List.Forall₂ (fun a b => (f a).outcome = .done b) as bs := by
  induction as generalizing i bs with
  | nil => simp [forEach, eq_comm]
  | cons a as ih =>
    simp only [forEach, outcome_bind]
    cases ha : (f a).outcome with
    | done b =>
      cases has : (forEach (fun _ => f) (i + 1) as).outcome <;>
        simp [Outcome.bind, has, ha, List.forall₂_cons_left_iff, ← ih (i + 1), eq_comm]
    | failed | unfinished => simp [Outcome.bind, ha, List.forall₂_cons_left_iff]

-- A run over a list gives what the runs over the items do.
theorem gives_forEach {R : α → β → Prop} {f : Nat → α → Run β} {as : List α} {i : Nat} :
    (forEach f i as).Gives (List.Forall₂ R as) ↔
      ∀ j a, as[j]? = some a → (f (i + j) a).Gives (R a) := by
  induction as generalizing i with
  | nil => simp [forEach]
  | cons a as ih =>
    simp only [forEach, gives_bind, gives_pure, List.forall₂_cons, gives_and_left, gives_and_right,
      ih]
    constructor
    · rintro ⟨ha, has⟩ (_ | j) b hb
      · exact Option.some.inj hb ▸ ha
      · rw [Nat.add_comm j, ← Nat.add_assoc]
        exact has j b hb
    · refine fun h => ⟨h 0 a rfl, fun j b hb => ?_⟩
      rw [Nat.add_assoc, Nat.add_comm 1]
      exact h (j + 1) b hb

-- The same where what the run over an item gives does not depend on the position of the item.
theorem gives_forEach_iff {R : α → β → Prop} {f : Nat → α → Run β} {Q : α → Prop} {as : List α}
    {i : Nat} (h : ∀ j a, as[j]? = some a → ((f (i + j) a).Gives (R a) ↔ Q a)) :
    (forEach f i as).Gives (List.Forall₂ R as) ↔ ∀ a ∈ as, Q a := by
  rw [gives_forEach]
  constructor
  · intro hg a ha
    have ⟨j, hj⟩ := List.mem_iff_getElem?.mp ha
    exact (h j a hj).mp (hg j a hj)
  · exact fun hq j a hj => (h j a hj).mpr (hq a (List.mem_of_getElem? hj))

end TreeCodec.Run
