import TreeCodec.Proofs.Lists
import TreeCodec.Proofs.Sequential

/-!
How deep calls are nested inside one another.

A call is a procedure and an input, and it makes further calls on its own input or on inputs of lower
levels. No procedure can be running twice on one input in a run that ends, so such a run nests as many
calls as there are procedures, for each level.
-/
namespace TreeCodec

section Nest

variable {C R : Type} (body : C → (C → Run R) → Run R)

-- Runs the body of a call, nesting at most `n` calls.
def nest : Nat → C → Run R
  | 0, _ => Run.unfinished
  | n + 1, c => body c (nest n)

end Nest

section Levels

variable {K X R : Type} {body : K × X → (K × X → Run R) → Run R} {level : X → Nat} {keys : List K}

-- The procedures that are there call one another on inputs of no higher level.
structure Descends (body : K × X → (K × X → Run R) → Run R) (level : X → Nat) (keys : List K) :
    Prop where
  calls   : ∀ k ∈ keys, ∀ x,
    Sequential (fun c => c.2 = x ∨ level c.2 < level x) (body (k, x))
  missing : ∀ k, k ∉ keys → ∀ x call, (body (k, x) call).outcome = .unfinished

namespace Descends

theorem step (h : Descends body level keys) {call call' : K × X → Run R} {k : K} {x : X}
    (hc : ∀ c, c.2 = x ∨ level c.2 < level x → (call c).Upto (call' c)) :
    (body (k, x) call).Upto (body (k, x) call') := by
  by_cases hk : k ∈ keys
  case pos => exact (h.calls k hk x).upto hc
  case neg => exact .inl <| h.missing k hk x call

theorem nest_succ (h : Descends body level keys) (n : Nat) (c : K × X) :
    (nest body n c).Upto (nest body (n + 1) c) := by
  induction n generalizing c with
  | zero => exact .inl rfl
  | succ n ih => exact h.step fun c _ => ih c

theorem nest_mono (h : Descends body level keys) {n m : Nat} (hnm : n ≤ m) (c : K × X) :
    (nest body n c).Upto (nest body m c) := by
  induction hnm with
  | refl => exact .refl _
  | step _ ih => exact ih.trans (h.nest_succ _ c)

theorem mem_of_finished (h : Descends body level keys) {n : Nat} {c : K × X}
    (hf : (nest body n c).Finished) : c.1 ∈ keys := by
  by_contra hk
  cases n with
  | zero => exact hf rfl
  | succ n => exact hf <| h.missing c.1 hk c.2 _

-- With `n` nested calls as many calls on an input end as will ever end.
def Settled (body : K × X → (K × X → Run R) → Run R) (x : X) (n : Nat) : Prop :=
  ∀ k m, (nest body m (k, x)).Finished → (nest body n (k, x)).Finished

theorem Settled.upto (h : Descends body level keys) {c : K × X} {n : Nat}
    (hs : Settled body c.2 n) (m : Nat) : (nest body m c).Upto (nest body n c) := by
  by_cases hm : (nest body m c).Finished
  case neg => exact .inl <| by_contra hm
  case pos =>
    have hn : (nest body n c).Finished := hs c.1 m hm
    rcases Nat.le_total m n with hmn | hnm
    · exact h.nest_mono hmn c
    · exact .inr <| ((h.nest_mono hnm c).eq hn).symm

-- Where one call more lets no more calls end, no number of calls does.
theorem Settled.of_step (h : Descends body level keys) {x : X} {n : Nat}
    (hlow : ∀ y, level y < level x → Settled body y n)
    (hn : ∀ k, (nest body (n + 1) (k, x)).Finished → (nest body n (k, x)).Finished) :
    Settled body x n := by
  have hup : ∀ i k, (nest body (n + i) (k, x)).Upto (nest body n (k, x)) := by
    intro i
    induction i with
    | zero => exact fun k => .refl _
    | succ i ih =>
      intro k
      have hstep : (nest body (n + (i + 1)) (k, x)).Upto (nest body (n + 1) (k, x)) := by
        refine h.step fun c hc => ?_
        rcases hc with hx | hl
        · have ⟨k', y⟩ := c
          obtain rfl : y = x := hx
          exact ih k'
        · exact Settled.upto h (hlow c.2 hl) _
      apply hstep.trans
      by_cases hf : (nest body (n + 1) (k, x)).Finished
      case neg => exact .inl <| by_contra hf
      case pos => exact .inr <| ((h.nest_succ n (k, x)).eq (hn k hf)).symm
  intro k m hm
  exact (hup m k).finished <| (h.nest_mono (Nat.le_add_left m n) _).finished hm

theorem Settled.mono (h : Descends body level keys) {x : X} {n m : Nat} (hnm : n ≤ m)
    (hs : Settled body x n) : Settled body x m :=
  fun k i hi => (h.nest_mono hnm _).finished (hs k i hi)

open Classical in
-- Each number of calls lets another procedure end on the input, or none does any more.
theorem settled_add (h : Descends body level keys) {x : X} {n : Nat}
    (hlow : ∀ y, level y < level x → Settled body y n) :
    Settled body x (n + keys.length) := by
  have hcount : ∀ i, Settled body x (n + i) ∨
      i ≤ keys.countP fun k => decide (nest body (n + i) (k, x)).Finished := by
    intro i
    induction i with
    | zero => exact .inr <| Nat.zero_le _
    | succ i ih =>
      rcases ih with hs | hi
      · exact .inl <| hs.mono h <| Nat.le_succ _
      by_cases hstep : ∀ k, (nest body (n + i + 1) (k, x)).Finished →
          (nest body (n + i) (k, x)).Finished
      case pos =>
        refine .inl <| Settled.mono h (Nat.le_succ _) <| Settled.of_step h (fun y hy => ?_) hstep
        exact (hlow y hy).mono h <| Nat.le_add_right n i
      case neg =>
        refine .inr <| Nat.lt_of_le_of_lt hi ?_
        simp only [not_forall] at hstep
        have ⟨k, hk, hn⟩ := hstep
        refine countP_lt_countP (fun k hk => ?_) (h.mem_of_finished hk) (decide_eq_true hk)
          (decide_eq_false hn)
        exact decide_eq_true <| (h.nest_succ _ _).finished (of_decide_eq_true hk)
  rcases hcount keys.length with hs | hall
  · exact hs
  · intro k m hm
    have hall := List.countP_eq_length.mp <| Nat.le_antisymm List.countP_le_length hall
    exact of_decide_eq_true <| hall k <| h.mem_of_finished hm

-- A run that ends nests no more calls than there are procedures for each level.
theorem settled (h : Descends body level keys) (x : X) :
    Settled body x (keys.length * (level x + 1)) := by
  induction hl : level x using Nat.strongRecOn generalizing x with
  | ind l ih =>
    refine Nat.mul_succ .. ▸ h.settled_add fun y hy => ?_
    refine (ih (level y) (hl ▸ hy) y rfl).mono h <| Nat.mul_le_mul_left _ ?_
    exact hl ▸ hy

end Descends
end Levels
end TreeCodec
