import Mathlib.Data.Fintype.Card
import Mathlib.Data.Set.Finite.Basic
import Mathlib.Logic.Relation
import TreeCodec.Proofs.Nesting

/-!
Calls that wait for themselves.

A run waits for a call if what the call gives makes a difference to it. A run ends exactly if no call
that it waits for, directly or through others, waits for itself.
-/
namespace TreeCodec

section Asks

variable {C R α : Type} {may : C → Prop} {T : (C → Run R) → Run α} {call call' : C → Run R} {c : C}

-- Some other answer to the call makes a difference to the run.
def Asks (T : (C → Run R) → Run α) (call : C → Run R) (c : C) : Prop :=
  ∃ call', (∀ d, d ≠ c → call' d = call d) ∧ T call' ≠ T call

-- A run that comes to a call would have a longer log if the call was cut off after a longer one.
theorem Asks.first {log : List LogRecord} {T : Run R → (C → Run R) → Run α} :
    Asks (fun call => match (call c).outcome with
      | .unfinished => ⟨.unfinished, log ++ (call c).log⟩
      | _ => T (call c) call) call c := by
  classical
  generalize hr : (match (call c).outcome with
    | .unfinished => ⟨.unfinished, log ++ (call c).log⟩
    | _ => T (call c) call : Run α) = r
  refine ⟨fun d => if d = c then ⟨.unfinished, ⟨.trace, ""⟩ :: r.log⟩ else call d,
    fun d hd => if_neg hd, ?_⟩
  simp only [if_pos, hr]
  intro he
  have := congrArg (·.log.length) he
  simp only [List.length_append, List.length_cons] at this
  omega

namespace Sequential

-- A run that is cut off waits for a call that is.
theorem exists_asks (h : Sequential may T) (hu : (T call).outcome = .unfinished) :
    ∃ c, may c ∧ Asks T call c ∧ (call c).outcome = .unfinished := by
  induction h with
  | ended hr => exact absurd hu hr
  | @ask c log T hc _ ih =>
    by_cases hf : (call c).Finished
    case neg => exact ⟨c, hc, .first, by_contra hf⟩
    case pos =>
      have hu : (T (call c) call).outcome = .unfinished := by
        cases ho : (call c).outcome with
        | unfinished => exact absurd ho hf
        | done a => simpa only [ho] using hu
        | failed e => simpa only [ho] using hu
      have ⟨d, hd, ⟨call', hagree, hne⟩, hdu⟩ := ih _ hf hu
      have hcd : c ≠ d := fun h => hf <| h ▸ hdu
      refine ⟨d, hd, ⟨call', hagree, ?_⟩, hdu⟩
      simp only [hagree c hcd]
      cases ho : (call c).outcome with
      | unfinished => exact absurd ho hf
      | done a => exact hne
      | failed e => exact hne

-- What a run goes on to do after its first call ended.
theorem asks_rest {log : List LogRecord} {T : Run R → (C → Run R) → Run α} {d : C}
    (hf : (call c).Finished) (hd : c ≠ d) :
    Asks (fun call => match (call c).outcome with
      | .unfinished => ⟨.unfinished, log ++ (call c).log⟩
      | _ => T (call c) call) call d ↔ Asks (T (call c)) call d := by
  refine exists_congr fun call' => and_congr_right fun hagree => ?_
  simp only [hagree c hd]
  cases ho : (call c).outcome with
  | unfinished => exact absurd ho hf
  | done a => exact .rfl
  | failed e => exact .rfl

theorem not_asks_rest {log : List LogRecord} {T : Run R → (C → Run R) → Run α} {d : C}
    (hu : (call c).outcome = .unfinished) (hd : c ≠ d) :
    ¬ Asks (fun call => match (call c).outcome with
      | .unfinished => ⟨.unfinished, log ++ (call c).log⟩
      | _ => T (call c) call) call d := by
  rintro ⟨call', hagree, hne⟩
  simp only [hagree c hd, hu] at hne
  exact hne rfl

theorem may_of_asks (h : Sequential may T) (ha : Asks T call c) : may c := by
  induction h with
  | ended => exact absurd rfl ha.choose_spec.right
  | @ask b log T hb _ ih =>
    by_cases hbc : b = c
    case pos => exact hbc ▸ hb
    case neg =>
      by_cases hf : (call b).Finished
      case pos => exact ih _ hf <| (asks_rest hf hbc).mp ha
      case neg => exact absurd ha <| not_asks_rest (by_contra hf) hbc

-- A run that ends waits only for calls that do.
theorem finished_of_asks (h : Sequential may T) (hf : (T call).Finished) (ha : Asks T call c) :
    (call c).Finished := by
  induction h with
  | ended => exact absurd rfl ha.choose_spec.right
  | @ask b log T hb _ ih =>
    have hfb : (call b).Finished := fun hu => hf <| by simp only [hu]
    by_cases hbc : b = c
    case pos => exact hbc ▸ hfb
    case neg =>
      refine ih _ hfb ?_ <| (asks_rest hfb hbc).mp ha
      cases ho : (call b).outcome with
      | unfinished => exact absurd ho hfb
      | done a => simpa only [ho] using hf
      | failed e => simpa only [ho] using hf

-- What a run waits for it waits for also if more calls end.
theorem asks_mono (h : Sequential may T) (hc : ∀ c, may c → (call c).Upto (call' c))
    (ha : Asks T call c) : Asks T call' c := by
  induction h with
  | ended => exact absurd rfl ha.choose_spec.right
  | @ask b log T hb _ ih =>
    by_cases hbc : b = c
    case pos => exact hbc ▸ .first
    case neg =>
      by_cases hf : (call b).Finished
      case neg => exact absurd ha <| not_asks_rest (by_contra hf) hbc
      case pos =>
        have he := (hc b hb).eq hf
        have ha : Asks (T (call b)) call' c := ih _ hf <| (asks_rest hf hbc).mp ha
        exact (asks_rest (he ▸ hf) hbc).mpr <| he ▸ ha

-- Once a run ends, it waits for nothing else if more calls end.
theorem asks_of_finished (h : Sequential may T) (hc : ∀ c, may c → (call c).Upto (call' c))
    (hf : (T call).Finished) (ha : Asks T call' c) : Asks T call c := by
  induction h with
  | ended => exact absurd rfl ha.choose_spec.right
  | @ask b log T hb _ ih =>
    by_cases hbc : b = c
    case pos => exact hbc ▸ .first
    case neg =>
      have hfb : (call b).Finished := fun hu => hf <| by simp only [hu]
      have he := (hc b hb).eq hfb
      refine (asks_rest hfb hbc).mpr <| ih _ hfb ?_ <| he ▸ (asks_rest (he ▸ hfb) hbc).mp ha
      cases ho : (call b).outcome with
      | unfinished => exact absurd ho hfb
      | done a => simpa only [ho] using hf
      | failed e => simpa only [ho] using hf

end Sequential
end Asks

section Needs

variable {K X R : Type}

-- The body of one call waits for another call, when enough calls are nested for it to come to that.
def Needs (body : K × X → (K × X → Run R) → Run R) (c d : K × X) : Prop :=
  ∃ n, Asks (body c) (nest body n) d

variable {body : K × X → (K × X → Run R) → Run R} {level : X → Nat} {keys : List K}

namespace Descends

theorem under_of_needs (h : Descends body level keys) {c d : K × X} (hc : c.1 ∈ keys)
    (hd : Needs body c d) : d.2 = c.2 ∨ level d.2 < level c.2 :=
  have ⟨_, ha⟩ := hd
  (h.calls c.1 hc c.2).may_of_asks ha

-- A call ends if all calls that it waits for do.
theorem finished_of_needs (h : Descends body level keys) {c : K × X} (hc : c.1 ∈ keys)
    (hd : ∀ d, Needs body c d → ∃ n, (nest body n d).Finished) : ∃ n, (nest body n c).Finished := by
  by_contra hn
  simp only [not_exists] at hn
  have hu : (body c (nest body (keys.length * (level c.2 + 1)))).outcome = .unfinished :=
    by_contra <| hn (keys.length * (level c.2 + 1) + 1)
  have ⟨d, hm, ha, hdu⟩ := (h.calls c.1 hc c.2).exists_asks hu
  have ⟨m, hf⟩ := hd d ⟨_, ha⟩
  have hle : level d.2 ≤ level c.2 := hm.elim (fun he => he ▸ Nat.le_refl _) Nat.le_of_lt
  have hs := (h.settled d.2).mono h <| Nat.mul_le_mul_left _ <| Nat.succ_le_succ hle
  exact hs d.1 m hf hdu

-- A call nests one call more than those that it waits for.
theorem finished_of_needed (h : Descends body level keys) {c d : K × X} {n : Nat}
    (hf : (nest body n c).Finished) (hd : Needs body c d) :
    ∃ m < n, (nest body m d).Finished := by
  have hc := h.mem_of_finished hf
  have ⟨m, ha⟩ := hd
  cases n with
  | zero => exact absurd rfl hf
  | succ n =>
    refine ⟨n, Nat.lt_succ_self n, (h.calls c.1 hc c.2).finished_of_asks hf ?_⟩
    have ha := (h.calls c.1 hc c.2).asks_mono (fun d _ => h.nest_mono (Nat.le_max_right n m) d) ha
    exact (h.calls c.1 hc c.2).asks_of_finished
      (fun d _ => h.nest_mono (Nat.le_max_left n m) d) hf ha

theorem finished_of_transGen (h : Descends body level keys) {c d : K × X} {n : Nat}
    (hf : (nest body n c).Finished) (hd : Relation.TransGen (Needs body) c d) :
    ∃ m < n, (nest body m d).Finished := by
  induction hd with
  | single hd => exact h.finished_of_needed hf hd
  | tail _ hd ih =>
    have ⟨m, hm, hf⟩ := ih
    have ⟨k, hk, hf⟩ := h.finished_of_needed hf hd
    exact ⟨k, Nat.lt_trans hk hm, hf⟩

theorem not_needs_itself (h : Descends body level keys) {c : K × X} {n : Nat}
    (hf : (nest body n c).Finished) : ¬ Relation.TransGen (Needs body) c c := by
  intro hd
  induction n using Nat.strongRecOn with
  | ind n ih =>
    have ⟨m, hm, hf⟩ := h.finished_of_transGen hf hd
    exact ih m hm hf

-- The calls on one input are finitely many, so they wait for one another in an order if none waits
-- for itself.
theorem finished_of_acyclic (h : Descends body level keys)
    (hin : ∀ c d, c.1 ∈ keys → Needs body c d → d.1 ∈ keys) {c : K × X} (hc : c.1 ∈ keys)
    (hd : ∀ d, Relation.ReflTransGen (Needs body) c d → ¬ Relation.TransGen (Needs body) d d) :
    ∃ n, (nest body n c).Finished := by
  induction hl : level c.2 using Nat.strongRecOn generalizing c with
  | ind l ih =>
    have hfin : Finite {k // k ∈ keys} := List.finite_toSet keys
    let waits (k k' : {k // k ∈ keys}) : Prop :=
      Relation.ReflTransGen (Needs body) c (k'.1, c.2) ∧ Needs body (k'.1, c.2) (k.1, c.2)
    have hto : ∀ k k', Relation.TransGen waits k k' →
        Relation.ReflTransGen (Needs body) c (k'.1, c.2) ∧
          Relation.TransGen (Needs body) (k'.1, c.2) (k.1, c.2) := by
      intro k k' hk
      induction hk with
      | single hk => exact ⟨hk.left, .single hk.right⟩
      | tail _ hk ih => exact ⟨hk.left, .head hk.right ih.right⟩
    have : Std.Irrefl (Relation.TransGen waits) :=
      ⟨fun k hk => hd _ (hto k k hk).left (hto k k hk).right⟩
    have hwf : WellFounded (Relation.TransGen waits) := Finite.wellFounded_of_trans_of_irrefl _
    have hall : ∀ k : {k // k ∈ keys}, Relation.ReflTransGen (Needs body) c (k.1, c.2) →
        ∃ n, (nest body n (k.1, c.2)).Finished := by
      intro k
      induction k using hwf.induction with
      | _ k ihk =>
        intro hk
        refine h.finished_of_needs k.2 fun d hkd => ?_
        have hdk := hin _ _ k.2 hkd
        rcases h.under_of_needs k.2 hkd with he | hlt
        · have ⟨k', y⟩ := d
          obtain rfl : y = c.2 := he
          exact ihk ⟨k', hdk⟩ (.single ⟨hk, hkd⟩) (hk.tail hkd)
        · refine ih _ (hl ▸ hlt) hdk (fun e he => hd e ?_) rfl
          exact (hk.tail hkd).trans he
    exact hall ⟨c.1, hc⟩ .refl

end Descends
end Needs
end TreeCodec
