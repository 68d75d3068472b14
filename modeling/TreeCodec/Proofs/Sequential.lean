import TreeCodec.Proofs.Approximation

/-!
Runs that make calls one after the other.

What such a run does after a call depends on nothing but what the call gave, and where a call is cut
off the run is.
-/
namespace TreeCodec

namespace Run

variable {α : Type}

-- `x` was cut off, or it is `y`.
def Upto (x y : Run α) : Prop :=
  x.outcome = .unfinished ∨ x = y

namespace Upto

theorem refl (x : Run α) : x.Upto x :=
  .inr rfl

theorem trans {x y z : Run α} (h₁ : x.Upto y) (h₂ : y.Upto z) : x.Upto z := by
  rcases h₁ with h₁ | rfl
  · exact .inl h₁
  · exact h₂

theorem eq {x y : Run α} (h : x.Upto y) (hx : x.Finished) : x = y :=
  h.resolve_left hx

theorem finished {x y : Run α} (h : x.Upto y) (hx : x.Finished) : y.Finished :=
  h.eq hx ▸ hx

theorem below {x y : Run α} (h : x.Upto y) : x.Below y := by
  rcases h with h | rfl
  · exact .inl h
  · exact .refl x

end Upto

theorem ofExcept_finished (x : Except SchemaError α) : (ofExcept x).Finished := by
  cases x <;> exact nofun

-- A run after other records.
def after (log : List LogRecord) (x : Run α) : Run α :=
  { x with log := log ++ x.log }

theorem bind_of_done {β : Type} {x : Run α} {a : α} (f : α → Run β) (h : x.outcome = .done a) :
    x >>= f = (f a).after x.log := by
  show Run.bind x f = _
  simp [Run.bind, h, after]

theorem bind_of_failed {β : Type} {x : Run α} {e : ConversionError} (f : α → Run β)
    (h : x.outcome = .failed e) : x >>= f = ⟨.failed e, x.log⟩ := by
  show Run.bind x f = _
  simp [Run.bind, h]

theorem bind_of_unfinished {β : Type} {x : Run α} (f : α → Run β)
    (h : x.outcome = .unfinished) : x >>= f = ⟨.unfinished, x.log⟩ := by
  show Run.bind x f = _
  simp [Run.bind, h]

theorem bind_assoc {β γ : Type} (x : Run α) (f : α → Run β) (g : β → Run γ) :
    x >>= f >>= g = x >>= fun a => f a >>= g := by
  cases hx : x.outcome with
  | done a =>
    rw [bind_of_done _ hx, bind_of_done _ hx]
    cases hy : (f a).outcome <;>
      simp [Bind.bind, Run.bind, after, hy]
  | failed e =>
    rw [bind_of_failed _ hx, bind_of_failed _ hx]
    rfl
  | unfinished =>
    rw [bind_of_unfinished _ hx, bind_of_unfinished _ hx]
    rfl

end Run

-- A run that makes calls which it may make, as a function of what the calls give.
inductive Sequential {C R α : Type} (may : C → Prop) : ((C → Run R) → Run α) → Prop
  | ended {r : Run α} : r.Finished → Sequential may fun _ => r
  | ask {c : C} (log : List LogRecord) {T : Run R → (C → Run R) → Run α} :
    may c → (∀ r, r.Finished → Sequential may (T r)) →
    Sequential may fun call =>
      match (call c).outcome with
      | .unfinished => ⟨.unfinished, log ++ (call c).log⟩
      | _ => T (call c) call

namespace Sequential

variable {C R α β : Type} {may may' : C → Prop} {T : (C → Run R) → Run α}

theorem imp (h : Sequential may T) (hm : ∀ c, may c → may' c) : Sequential may' T := by
  induction h with
  | ended hr => exact .ended hr
  | ask log hc _ ih => exact .ask log (hm _ hc) ih

theorem of_eq {T' : (C → Run R) → Run α} (h : Sequential may T) (he : ∀ call, T call = T' call) :
    Sequential may T' :=
  funext he ▸ h

-- A run goes on with its result unless it was cut off.
theorem andThen (h : Sequential may T) (T' : Run α → (C → Run R) → Run β)
    (hT' : ∀ r, r.Finished → Sequential may (T' r)) :
    Sequential may fun call =>
      match (T call).outcome with
      | .unfinished => ⟨.unfinished, (T call).log⟩
      | _ => T' (T call) call := by
  induction h with
  | @ended r hr =>
    refine (hT' r hr).of_eq fun call => ?_
    cases ho : r.outcome with
    | unfinished => exact absurd ho hr
    | done a => rfl
    | failed e => rfl
  | @ask c log T hc _ ih =>
    refine (ask log hc ih).of_eq fun call => ?_
    cases ho : (call c).outcome <;> simp only [ho]

theorem after (h : Sequential may T) (log : List LogRecord) :
    Sequential may fun call => (T call).after log := by
  induction h with
  | ended hr => exact .ended hr
  | @ask c log' T hc _ ih =>
    refine (ask (log ++ log') hc ih).of_eq fun call => ?_
    cases ho : (call c).outcome <;> simp only [ho, Run.after, List.append_assoc]

-- A call by itself.
theorem call {C R : Type} {may : C → Prop} {c : C} (h : may c) :
    Sequential (R := R) may fun call => call c := by
  refine (Sequential.ask [] (T := fun r _ => r) h fun r hr => .ended hr).of_eq
    fun call => ?_
  cases ho : (call c).outcome with
  | unfinished => simp [ho, Run.ext_iff]
  | done a => rfl
  | failed e => rfl

theorem bind {T' : α → (C → Run R) → Run β} (h : Sequential may T)
    (hT' : ∀ a, Sequential may (T' a)) :
    Sequential may fun call => T call >>= fun a => T' a call := by
  refine (h.andThen (fun r call => r >>= fun a => T' a call) fun r hr => ?_).of_eq
    fun call => ?_
  · cases ho : r.outcome with
    | unfinished => exact absurd ho hr
    | done a =>
      exact ((hT' a).after r.log).of_eq fun call =>
        (Run.bind_of_done (fun a => T' a call) ho).symm
    | failed e =>
      exact (Sequential.ended (r := ⟨.failed e, r.log⟩) nofun).of_eq fun call =>
        (Run.bind_of_failed (fun a => T' a call) ho).symm
  · cases ho : (T call).outcome with
    | unfinished => exact (Run.bind_of_unfinished _ ho).symm
    | done a => rfl
    | failed e => rfl

-- What was found out before the calls.
theorem const_bind {x : Run α} {T' : α → (C → Run R) → Run β} (hx : x.Finished)
    (hT' : ∀ a, Sequential may (T' a)) : Sequential may fun call => x >>= fun a => T' a call :=
  (ended hx).bind hT'

theorem mapError (h : Sequential may T) (f : ConversionError → ConversionError) :
    Sequential may fun call => { T call with outcome := (T call).outcome.mapError f } := by
  refine (h.andThen (fun r _ => { r with outcome := r.outcome.mapError f })
    fun r hr => .ended ?_).of_eq fun call => ?_
  · cases ho : r.outcome <;> simp_all [Run.Finished, Outcome.Finished, Outcome.mapError]
  · cases ho : (T call).outcome <;> simp [Outcome.mapError]

theorem within (h : Sequential may T) (step : PathStep) :
    Sequential may fun call => (T call).within step :=
  h.mapError (·.within step)

theorem through (h : Sequential may T) (name : String) :
    Sequential may fun call => (T call).through name :=
  h.mapError (·.through name)

theorem forEach {γ : Type} {f : (C → Run R) → Nat → γ → Run α} {as : List γ}
    (h : ∀ i, ∀ a ∈ as, Sequential may fun call => f call i a) (i : Nat) :
    Sequential may fun call => Run.forEach (f call) i as := by
  induction as generalizing i with
  | nil => exact .ended nofun
  | cons a as ih =>
    refine (h i a (List.mem_cons_self ..)).bind fun b => ?_
    refine (ih (fun i a ha => h i a (List.mem_cons_of_mem _ ha)) (i + 1)).bind fun bs => ?_
    exact .ended nofun

-- Where the calls agree that a run may make, the run goes on in the same way.
theorem upto (h : Sequential may T) {call call' : C → Run R}
    (hc : ∀ c, may c → (call c).Upto (call' c)) : (T call).Upto (T call') := by
  induction h with
  | ended => exact .refl _
  | @ask c log T hm _ ih =>
    rcases hc c hm with hu | he
    · exact .inl <| by simp only [hu]
    · simp only [← he]
      cases ho : (call c).outcome with
      | unfinished => exact .refl _
      | done a => exact ih (call c) (by simp [Run.Finished, Outcome.Finished, ho])
      | failed e => exact ih (call c) (by simp [Run.Finished, Outcome.Finished, ho])

end Sequential
end TreeCodec
