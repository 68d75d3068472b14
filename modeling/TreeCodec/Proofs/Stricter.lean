import TreeCodec.Proofs.Lists
import TreeCodec.Proofs.LoadCalls

/-!
Procedures that check the keys of objects against procedures that do not.

With the checks a run ends as it does without them, or it fails at a key that is not known. Where the
alternatives of unions are tried this is lost, as a failure there only makes the next one be tried.
-/
namespace TreeCodec

variable {α β γ : Type}

namespace Run

-- `x` ends as `y`, or it fails at a key that is not known.
def Stricter (x y : Run α) : Prop :=
  x.outcome = y.outcome ∨ ∃ e key, x.outcome = .failed e ∧ e.fault = .unknownKey key

namespace Stricter

theorem refl (x : Run α) : x.Stricter x :=
  .inl rfl

theorem mapError {x y : Run α} {f : ConversionError → ConversionError}
    (hf : ∀ e, (f e).fault = e.fault) (h : x.Stricter y) :
    Stricter { x with outcome := x.outcome.mapError f }
      { y with outcome := y.outcome.mapError f } := by
  rcases h with h | ⟨e, key, he, hk⟩
  case inl => exact .inl <| congrArg (Outcome.mapError f) h
  case inr => exact .inr ⟨f e, key, congrArg (Outcome.mapError f) he, (hf e).trans hk⟩

theorem within {x y : Run α} (h : x.Stricter y) (step : PathStep) :
    (x.within step).Stricter (y.within step) :=
  h.mapError fun _ => rfl

theorem through {x y : Run α} (h : x.Stricter y) (procedure : String) :
    (x.through procedure).Stricter (y.through procedure) :=
  h.mapError fun _ => rfl

theorem bind {x y : Run α} {f g : α → Run β} (h : x.Stricter y) (hf : ∀ a, (f a).Stricter (g a)) :
    (x >>= f).Stricter (y >>= g) := by
  rcases h with h | ⟨e, key, he, hk⟩
  case inr => exact .inr ⟨e, key, by simp [he, Outcome.bind], hk⟩
  case inl =>
    unfold Stricter
    rw [outcome_bind, outcome_bind, h]
    cases y.outcome with
    | done a => exact hf a
    | failed e => exact .inl rfl
    | unfinished => exact .inl rfl

theorem bind_right {x : Run α} {f g : α → Run β} (hf : ∀ a, (f a).Stricter (g a)) :
    (x >>= f).Stricter (x >>= g) :=
  (refl x).bind hf

theorem forEach {f g : Nat → α → Run β} {as : List α}
    (h : ∀ a ∈ as, ∀ i, (f i a).Stricter (g i a)) (i : Nat) :
    (Run.forEach f i as).Stricter (Run.forEach g i as) := by
  induction as generalizing i with
  | nil => exact refl _
  | cons a as ih =>
    have ⟨ha, has⟩ := List.forall_mem_cons.mp h
    exact (ha i).bind fun _ => (ih has (i + 1)).bind fun _ => refl _

-- A check that only fails at unknown keys may be left out.
theorem of_check {x : Run Unit} {y z : Run α} (h : x.Stricter (Pure.pure ()))
    (hy : y.Stricter z) : (x >>= fun _ => y).Stricter z :=
  h.bind (g := fun _ => z) fun _ => hy

end Stricter
end Run

namespace Load

-- One rule is stricter than another one on every input.
def Rule.Stricter (r r' : Rule) : Prop :=
  ∀ input, (r input).Stricter (r' input)

variable {S : Schema} {r r' k k' : Rule}

theorem optional_stricter {t : Ty} (h : r.Stricter r') :
    (optional S t r).Stricter (optional S t r') := by
  intro input
  match input with
  | none | some .null => exact .refl _
  | some (.bool _) | some (.number _) | some (.text _) | some (.array _) | some (.object _) =>
    exact (h _).bind fun _ => .refl _

theorem boxed_stricter {t : Ty} (h : r.Stricter r') : (boxed S t r).Stricter (boxed S t r') :=
  fun input => (h input).bind fun _ => .refl _

theorem list_stricter {t item : Ty} (h : r.Stricter r') :
    (list S t item r).Stricter (list S t item r') := by
  intro input
  refine .bind_right fun t => ?_
  cases t with
  | array items => exact (Run.Stricter.forEach (fun _ _ _ => (h _).within _) 0).bind fun _ => .refl _
  | _ => exact .refl _

theorem map_stricter {t key value : Ty} {kind : MapKind} (hk : k.Stricter k')
    (h : r.Stricter r') :
    (map S t kind key value k r).Stricter (map S t kind key value k' r') := by
  intro input
  refine .bind_right fun t => ?_
  cases t with
  | object entries =>
    refine (Run.Stricter.forEach (fun _ _ _ => ?_) 0).bind fun _ => .refl _
    exact ((hk _).within _).bind fun _ => ((h _).within _).bind fun _ => .refl _
  | _ => exact .refl _

theorem checkKeys_stricter (known : List String) (input : Option Tree) :
    (checkKeys known input).Stricter (pure ()) := by
  unfold checkKeys
  split
  case h_1 =>
    split
    case h_1 key _ => exact .inr ⟨_, key, rfl, rfl⟩
    case h_2 => exact .refl _
  case h_2 => exact .refl _

end Load

namespace LoadSource

variable {frame : LoadFrame} {r r' : Load.Rule}

theorem locate_stricter {x y : Run α} (h : x.Stricter y) :
    ∀ s : LoadSource, (s.locate x).Stricter (s.locate y)
  | var _ => h
  | key _ _ | item _ _ => h.within _

theorem feed_stricter (s : LoadSource) (h : r.Stricter r') :
    (s.feed frame r).Stricter (s.feed frame r') :=
  locate_stricter (.bind_right fun _ => h _) s

end LoadSource

namespace LoadExpr

-- An expression without unions.
def UnionFree : LoadExpr → Prop
  | scalar .. | tree .. | hook .. | call .. => True
  | optional _ _ e | boxed _ _ e | list _ _ _ e => e.UnionFree
  | map _ _ _ _ _ k v => k.UnionFree ∧ v.UnionFree
  | union .. => False

theorem eval_stricter {S : Schema} {callee callee' : Nat → Load.Rule}
    (hcall : ∀ i, (callee i).Stricter (callee' i)) :
    ∀ (e : LoadExpr) {frame : LoadFrame}, e.UnionFree →
      (e.eval S callee frame).Stricter (e.eval S callee' frame)
  | scalar .., _, _ | tree .., _, _ | hook .., _, _ => .refl _
  | call s i, _, _ => s.feed_stricter (hcall i)
  | optional s _ e, _, he =>
    s.feed_stricter <| Load.optional_stricter fun _ => eval_stricter hcall e he
  | boxed s _ e, _, he =>
    s.feed_stricter <| Load.boxed_stricter fun _ => eval_stricter hcall e he
  | list s _ _ e, _, he =>
    s.feed_stricter <| Load.list_stricter fun _ => eval_stricter hcall e he
  | map s _ _ _ _ k v, _, ⟨hk, hv⟩ =>
    s.feed_stricter <| Load.map_stricter (fun _ => eval_stricter hcall k hk) fun _ =>
      eval_stricter hcall v hv

end LoadExpr

-- The same procedure without a check of the keys.
def LoadProcedure.lenient (p : LoadProcedure) : LoadProcedure :=
  { p with knownKeys := none }

namespace LoadProcedure

variable {S : Schema} {p : LoadProcedure} {callee callee' : Nat → Load.Rule}

theorem checkKnown_stricter (p : LoadProcedure) (x : Option Tree) :
    (p.checkKnown x).Stricter (pure ()) := by
  unfold checkKnown
  cases p.knownKeys with
  | none => exact .refl _
  | some keys => exact Load.checkKeys_stricter keys x

variable (hcall : ∀ i, (callee i).Stricter (callee' i)) (hp : p.All LoadExpr.UnionFree)
include hcall hp

theorem fill_stricter (x : Option Tree) :
    (p.fill S callee x).Stricter (p.lenient.fill S callee' x) := by
  refine (Run.Stricter.forEach (fun a ha _ => ?_) 0).bind fun values => ?_
  · refine .bind_right fun t => ?_
    have he : (a.value.eval S callee [x]).Stricter (a.value.eval S callee' [x]) :=
      a.value.eval_stricter hcall (hp.assignments a ha)
    cases t <;> cases a.default
    case none.some => exact .refl _
    all_goals exact he
  · unfold lenient
    cases hr : p.result with
    | construct t => exact .refl _
    | value e => exact e.eval_stricter hcall (hp.result e hr)

theorem body_stricter (x : Option Tree) :
    (p.body S callee x).Stricter (p.lenient.body S callee' x) := by
  rw [body_eq, body_eq]
  exact .bind_right fun _ => .of_check (p.checkKnown_stricter x) (fill_stricter hcall hp x)

theorem run_stricter (x : Option Tree) (default : Option Value) :
    (p.run S callee x default).Stricter (p.lenient.run S callee' x default) := by
  have hbody := (body_stricter (S := S) hcall hp x).through p.name
  cases x with
  | some t => exact hbody
  | none =>
    cases default with
    | some v => exact .refl _
    | none =>
      show Run.Stricter (if p.passesAbsent then (p.body S callee none).through p.name
        else Run.fault .missing) (if p.passesAbsent then
          (p.lenient.body S callee' none).through p.name else Run.fault .missing)
      split
      case isTrue => exact hbody
      case isFalse => exact .refl _

end LoadProcedure

namespace CompiledUnit

variable {U V : CompiledUnit} {S : Schema} (hV : V.loads = U.loads.map LoadProcedure.lenient)
  (hU : ∀ p ∈ U.loads, p.All LoadExpr.UnionFree)
include hV hU

theorem callLoad_stricter (n i : Nat) :
    Load.Rule.Stricter (U.callLoad S n i) (V.callLoad S n i) := by
  induction n generalizing i with
  | zero => exact fun _ => .refl _
  | succ n ih =>
    intro x
    simp only [callLoad, hV, List.getElem?_map]
    cases hp : U.loads[i]? with
    | none => exact .refl _
    | some p => exact LoadProcedure.run_stricter ih (hU p (List.mem_of_getElem? hp)) x none

theorem load_stricter (i : Nat) (x : Option Tree) (default : Option Value) :
    (U.load S i x default).Stricter (V.load S i x default) := by
  simp only [load, loadBudget, hV, List.getElem?_map, List.length_map]
  cases hp : U.loads[i]? with
  | none => exact .refl _
  | some p =>
    exact LoadProcedure.run_stricter (callLoad_stricter hV hU _) (hU p (List.mem_of_getElem? hp))
      x default

end CompiledUnit
end TreeCodec
