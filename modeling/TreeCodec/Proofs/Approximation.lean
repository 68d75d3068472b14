import Mathlib.Data.List.Forall2
import TreeCodec.Convert.Direct

/-!
Runs that differ only in the procedures that they went through, and runs of which one was cut off
where the other one went on.
-/
namespace TreeCodec

-- An error without the procedures that it left.
def ConversionError.untrailed (e : ConversionError) : ConversionError :=
  { e with trail := [] }

theorem ConversionError.untrailed_through (p : String) (e : ConversionError) :
    (e.through p).untrailed = e.untrailed :=
  rfl

theorem ConversionError.untrailed_within (s : PathStep) (e : ConversionError) :
    (e.within s).untrailed = e.untrailed.within s :=
  rfl

theorem ConversionError.message_eq_of_untrailed {e f : ConversionError}
    (h : e.untrailed = f.untrailed) : e.message = f.message := by
  simp only [untrailed, mk.injEq, and_true] at h
  simp only [message, h]

namespace Outcome

variable {α : Type}

def untrailed (o : Outcome α) : Outcome α :=
  o.mapError ConversionError.untrailed

def Finished (o : Outcome α) : Prop :=
  o ≠ .unfinished

theorem untrailed_done {a : α} : (done a).untrailed = done a :=
  rfl

theorem untrailed_eq_done_iff {o : Outcome α} {a : α} : o.untrailed = done a ↔ o = done a := by
  cases o <;> simp [untrailed, mapError]

theorem untrailed_eq_unfinished_iff {o : Outcome α} : o.untrailed = unfinished ↔ o = unfinished := by
  cases o <;> simp [untrailed, mapError]

end Outcome

namespace Run

variable {α β γ : Type}

def untrailed (x : Run α) : Run α :=
  { x with outcome := x.outcome.untrailed }

def Finished (x : Run α) : Prop :=
  x.outcome.Finished

-- `x` was cut off, or it is `y` up to the trail of its error.
def Below (x y : Run α) : Prop :=
  x.outcome = .unfinished ∨ x.untrailed = y.untrailed

theorem ext_iff {x y : Run α} : x = y ↔ x.outcome = y.outcome ∧ x.log = y.log := by
  cases x; cases y; simp

theorem untrailed_eq_iff {x y : Run α} :
    x.untrailed = y.untrailed ↔ x.outcome.untrailed = y.outcome.untrailed ∧ x.log = y.log := by
  simp [untrailed]

theorem untrailed_through (p : String) (x : Run α) : (x.through p).untrailed = x.untrailed := by
  refine untrailed_eq_iff.mpr ⟨?_, rfl⟩
  cases hx : x.outcome <;>
    simp [hx, Outcome.untrailed, Outcome.mapError, ConversionError.untrailed_through]

namespace Below

theorem refl (x : Run α) : x.Below x :=
  .inr rfl

theorem unfinished_of_untrailed_eq {x y : Run α} (h : x.untrailed = y.untrailed)
    (hy : y.outcome = .unfinished) : x.outcome = .unfinished := by
  have h := (untrailed_eq_iff.mp h).left
  rw [hy] at h
  exact Outcome.untrailed_eq_unfinished_iff.mp h

theorem trans {x y z : Run α} (h₁ : x.Below y) (h₂ : y.Below z) : x.Below z := by
  rcases h₁ with h₁ | h₁
  case inl => exact .inl h₁
  case inr =>
    rcases h₂ with h₂ | h₂
    case inl => exact .inl <| unfinished_of_untrailed_eq h₁ h₂
    case inr => exact .inr <| h₁.trans h₂

theorem outcome_eq {x y : Run α} (h : x.Below y) (hx : x.Finished) :
    x.outcome.untrailed = y.outcome.untrailed :=
  (untrailed_eq_iff.mp <| h.resolve_left hx).left

-- Two runs that are below one another end alike.
theorem antisymm {x y : Run α} (h₁ : x.Below y) (h₂ : y.Below x) :
    x.outcome.untrailed = y.outcome.untrailed := by
  by_cases hx : x.outcome = .unfinished
  case neg => exact h₁.outcome_eq hx
  case pos =>
    by_cases hy : y.outcome = .unfinished
    case pos => rw [hx, hy]
    case neg => exact (h₂.outcome_eq hy).symm

theorem within {x y : Run α} (s : PathStep) (h : x.Below y) : (x.within s).Below (y.within s) := by
  rcases h with h | h
  case inl => exact .inl <| by simp [h, Outcome.mapError]
  case inr =>
    have ⟨ho, hl⟩ := untrailed_eq_iff.mp h
    refine .inr <| untrailed_eq_iff.mpr ⟨?_, hl⟩
    cases hx : x.outcome <;> cases hy : y.outcome <;> rw [hx, hy] at ho <;>
      simp_all [Outcome.untrailed, Outcome.mapError, ConversionError.untrailed_within]

theorem of_untrailed_eq {x y : Run α} (h : x.untrailed = y.untrailed) : x.Below y :=
  .inr h

theorem bind {x y : Run α} {f g : α → Run β} (h : x.Below y) (hf : ∀ a, (f a).Below (g a)) :
    (x >>= f).Below (y >>= g) := by
  rcases h with h | h
  case inl => exact .inl <| by simp [h, Outcome.bind]
  case inr =>
    obtain ⟨ho, hl⟩ := untrailed_eq_iff.mp h
    cases hx : x.outcome with
    | done a =>
      have hy : y.outcome = .done a := Outcome.untrailed_eq_done_iff.mp <| by rw [← ho, hx]; rfl
      rcases hf a with hf | hf
      · exact .inl <| by simp [hx, Outcome.bind, hf]
      · obtain ⟨hfo, hfl⟩ := untrailed_eq_iff.mp hf
        refine .inr <| untrailed_eq_iff.mpr ?_
        simp [Bind.bind, Run.bind, hx, hy, hfo, hl, hfl]
    | failed e =>
      cases hy : y.outcome <;> rw [hx, hy] at ho <;>
        simp_all [Outcome.untrailed, Outcome.mapError]
      refine .inr <| untrailed_eq_iff.mpr ?_
      simp [Bind.bind, Run.bind, hx, hy, hl, Outcome.untrailed, Outcome.mapError, ho]
    | unfinished => exact .inl <| by simp [hx, Outcome.bind]

theorem bind_right {x : Run α} {f g : α → Run β} (hf : ∀ a, (f a).Below (g a)) :
    (x >>= f).Below (x >>= g) :=
  (refl x).bind hf

theorem forEach {f : Nat → α → Run γ} {g : Nat → β → Run γ} {as : List α} {bs : List β}
    (h : List.Forall₂ (fun a b => ∀ i, (f i a).Below (g i b)) as bs) (i : Nat) :
    (Run.forEach f i as).Below (Run.forEach g i bs) := by
  induction h generalizing i with
  | nil => exact refl _
  | cons h _ ih => exact (h i).bind fun _ => (ih (i + 1)).bind fun _ => refl _

theorem forEach_mem {f g : Nat → α → Run γ} {as : List α}
    (h : ∀ a ∈ as, ∀ i, (f i a).Below (g i a)) (i : Nat) :
    (Run.forEach f i as).Below (Run.forEach g i as) :=
  forEach (List.forall₂_same.mpr h) i

end Below
end Run
end TreeCodec
