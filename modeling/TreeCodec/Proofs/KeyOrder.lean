import TreeCodec.Proofs.LoadCalls
import TreeCodec.Proofs.Reordered

/-!
Loading does not depend on the order of the entries of objects.
-/
namespace TreeCodec

/-! ## Expressions -/

namespace LoadSource

variable {α : Type} {R : α → α → Prop} {frame frame' : LoadFrame}

theorem locate_agrees {x y : Run α} (h : x.Agrees R y) :
    ∀ s : LoadSource, (s.locate x).Agrees R (s.locate y)
  | var _ => h
  | key _ _ | item _ _ => h.within _ _

theorem read_agrees (hf : List.Forall₂ Tree.ReorderedInput frame frame') (s : LoadSource) :
    (s.read frame).Agrees Tree.ReorderedInput (s.read frame') := by
  have hup (up : Nat) : Tree.ReorderedInput frame[up]?.join frame'[up]?.join := by
    rcases getElem?_of_forall₂ hf up with ⟨ht, hu⟩ | ⟨t, u, ht, hu, h⟩ <;> rw [ht, hu]
    · exact .none
    · exact h
  cases s with
  | var up => exact .pure (hup up)
  | key up name => exact Load.entry_agrees name (hup up)
  | item up i => exact Load.element_agrees i (hup up)

theorem feed_agrees {r r' : Load.Rule} (hf : List.Forall₂ Tree.ReorderedInput frame frame')
    (h : r.Agrees r') (s : LoadSource) :
    (s.feed frame r).Agrees Value.Same (s.feed frame' r') :=
  locate_agrees ((read_agrees hf s).bind fun _ _ _ _ hxy => h _ _ hxy) s

end LoadSource

-- Keys of maps that are texts or characters.
def ScalarTy.isText : ScalarTy → Bool
  | string | char => true
  | _ => false

theorem Load.readKeys_scalar (S : Schema) {s : ScalarTy} (h : s.isText) :
    Load.ReadKeys S s (Load.scalar s) (Load.scalar s) := by
  have hread : ∀ text k, (Load.scalar s (some (.text text))).outcome = .done k →
      S.HasType (.scalar s) k ∧ (k = .text text ∨ ∃ c, k = .char c ∧ text.toList = [c]) := by
    intro text k hk
    cases s with
    | string =>
      cases hk
      exact ⟨.text _, .inl rfl⟩
    | char =>
      simp only [Load.scalar, Load.required, ScalarTy.kind, Tree.readScalar, Tree.readChar,
        Run.pure_bind] at hk
      split at hk
      case h_1 hc =>
        split at hc
        case h_1 c htext =>
          cases hc
          cases hk
          exact ⟨.char c, .inr ⟨c, rfl, htext⟩⟩
        case h_2 => cases hc
      case h_2 => cases hk
    | _ => cases h
  constructor
  case same => exact fun _ => rfl
  case typed => exact fun text k hk => (hread text k hk).left
  case injective =>
    intro text text' k hk hk'
    rcases (hread text k hk).right with rfl | ⟨c, rfl, hc⟩ <;>
      rcases (hread text' _ hk').right with he | ⟨c', he, hc'⟩ <;> cases he
    · rfl
    · exact String.toList_injective (hc.trans hc'.symm)

namespace LoadExpr

-- An expression for the keys of a map, which reads them as texts or characters.
def ReadsText (e : LoadExpr) : Prop :=
  ∃ s : ScalarTy, s.isText ∧ e = .scalar (.var 0) s

mutual

-- An expression whose values do not show the order of the entries of objects.
def Orderless : LoadExpr → Prop
  | scalar .. | call .. => True
  | tree .. | hook .. => False
  | optional _ _ e | boxed _ _ e | list _ _ _ e => e.Orderless
  | map _ _ _ _ _ k v => k.ReadsText ∧ v.Orderless
  | union _ _ _ es => AllOrderless es

def AllOrderless : List LoadExpr → Prop
  | [] => True
  | e :: es => e.Orderless ∧ AllOrderless es

end

variable {S : Schema} {callee callee' : Nat → Load.Rule}

mutual

theorem eval_agrees (hcall : ∀ i, (callee i).Agrees (callee' i)) :
    ∀ (e : LoadExpr) {frame frame' : LoadFrame}, e.Orderless →
    List.Forall₂ Tree.ReorderedInput frame frame' →
    (e.eval S callee frame).Agrees Value.Same (e.eval S callee' frame')
  | scalar s t, _, _, _, hf => s.feed_agrees hf (Load.scalar_agrees t)
  | call s i, _, _, _, hf => s.feed_agrees hf (hcall i)
  | optional s t e, _, _, he, hf =>
    s.feed_agrees hf <| Load.optional_agrees t fun _ _ h => eval_agrees hcall e he (.cons h hf)
  | boxed s t e, _, _, he, hf =>
    s.feed_agrees hf <| Load.boxed_agrees t fun _ _ h => eval_agrees hcall e he (.cons h hf)
  | list s t u e, _, _, he, hf =>
    s.feed_agrees hf <| Load.list_agrees t u fun _ _ h => eval_agrees hcall e he (.cons h hf)
  | map s t kind key value k v, frame, frame', ⟨hk, hv⟩, hf => by
    obtain ⟨scalarTy, hs, rfl⟩ := hk
    refine s.feed_agrees hf <| Load.map_agrees (s := scalarTy) t key value kind ?_ fun _ _ h =>
      eval_agrees hcall v hv (.cons h hf)
    exact Load.readKeys_scalar S hs
  | union s t variants es, _, _, he, hf =>
    s.feed_agrees hf <| Load.union_agrees t variants (evalList_agrees hcall es he hf)

theorem evalList_agrees (hcall : ∀ i, (callee i).Agrees (callee' i)) :
    ∀ (es : List LoadExpr) {frame frame' : LoadFrame}, AllOrderless es →
    List.Forall₂ Tree.ReorderedInput frame frame' →
    List.Forall₂ Load.Rule.Agrees (evalList S callee es frame) (evalList S callee' es frame')
  | [], _, _, _, _ => .nil
  | e :: es, _, _, ⟨he, hes⟩, hf =>
    .cons (fun _ _ h => eval_agrees hcall e he (.cons h hf)) (evalList_agrees hcall es hes hf)

end

end LoadExpr

/-! ## Procedures -/

theorem Assignment.eval_agrees {S : Schema} {callee callee' : Nat → Load.Rule}
    (hcall : ∀ i, (callee i).Agrees (callee' i)) {a : Assignment} {frame frame' : LoadFrame}
    (ha : a.value.Orderless) (hf : List.Forall₂ Tree.ReorderedInput frame frame') :
    (a.eval S callee frame).Agrees Value.Same (a.eval S callee' frame') := by
  refine (LoadSource.locate_agrees (a.source.read_agrees hf) _).bind fun x y _ _ hxy => ?_
  have he := LoadExpr.eval_agrees (S := S) hcall a.value ha hf
  cases hxy with
  | some => exact he
  | none =>
    cases a.default with
    | some v => exact .pure (.refl v)
    | none => exact he

theorem Expectation.check_agrees (e : Expectation) {x y : Option Tree}
    (h : Tree.ReorderedInput x y) : (e.check x).Agrees Eq (e.check y) := by
  cases e with
  | mapping => exact Load.checkMapping_agrees h
  | sequence min len => exact Load.checkSequence_agrees min len h

namespace LoadProcedure

variable {S : Schema} {p : LoadProcedure} {x y : Option Tree}

theorem checkKind_agrees (h : Tree.ReorderedInput x y) :
    (p.checkKind x).Agrees Eq (p.checkKind y) := by
  unfold checkKind
  cases p.expectation with
  | none => exact .pure rfl
  | some e => exact e.check_agrees h

theorem checkKnown_agrees (h : Tree.ReorderedInput x y) :
    (p.checkKnown x).Agrees Eq (p.checkKnown y) := by
  unfold checkKnown
  cases p.knownKeys with
  | none => exact .pure rfl
  | some keys => exact Load.checkKeys_agrees keys h

variable {callee callee' : Nat → Load.Rule} (hcall : ∀ i, (callee i).Agrees (callee' i))
include hcall

theorem fill_agrees (hp : p.All LoadExpr.Orderless) (h : Tree.ReorderedInput x y) :
    (p.fill S callee x).Agrees Value.Same (p.fill S callee' y) := by
  have hf : List.Forall₂ Tree.ReorderedInput [x] [y] := .cons h .nil
  have hfilled := Run.Agrees.forEach (List.forall₂_same.mpr fun a ha (_ : Nat) =>
    Assignment.eval_agrees (S := S) hcall (hp.assignments a ha) hf) 0
  refine hfilled.bind fun vs ws _ _ hvs => ?_
  cases hr : p.result with
  | construct t => exact Schema.construct_agrees t hvs
  | value e => exact LoadExpr.eval_agrees hcall e (hp.result e hr) hf

theorem body_agrees (hp : p.All LoadExpr.Orderless) (h : Tree.ReorderedInput x y) :
    (p.body S callee x).Agrees Value.Same (p.body S callee' y) := by
  rw [body_eq, body_eq]
  exact (checkKind_agrees h).bind fun _ _ _ _ _ => (checkKnown_agrees h).bind fun _ _ _ _ _ =>
    fill_agrees hcall hp h

theorem run_agrees (hp : p.All LoadExpr.Orderless) (h : Tree.ReorderedInput x y)
    (default : Option Value) :
    (p.run S callee x default).Agrees Value.Same (p.run S callee' y default) := by
  have hbody := (body_agrees (S := S) hcall hp h).through p.name p.name
  cases h with
  | some => exact hbody
  | none =>
    cases default with
    | some v => exact .pure (.refl v)
    | none =>
      show (if p.passesAbsent then (p.body S callee none).through p.name
        else Run.fault .missing).Agrees Value.Same
          (if p.passesAbsent then (p.body S callee' none).through p.name else Run.fault .missing)
      split
      case isTrue => exact hbody
      case isFalse => exact .fault _ _

end LoadProcedure

namespace CompiledUnit

variable {U : CompiledUnit} {S : Schema} (hU : ∀ p ∈ U.loads, p.All LoadExpr.Orderless)
include hU

-- Calls may even nest to different depths.
theorem callLoad_agrees (n m i : Nat) : Load.Rule.Agrees (U.callLoad S n i) (U.callLoad S m i) := by
  induction n generalizing m i with
  | zero => exact fun _ _ _ => .left _
  | succ n ih =>
    cases m with
    | zero => exact fun _ _ _ => .right _
    | succ m =>
      intro x y hxy
      unfold callLoad
      cases hp : U.loads[i]? with
      | none => exact .left _
      | some p => exact LoadProcedure.run_agrees (ih m) (hU p (List.mem_of_getElem? hp)) hxy none

theorem load_agrees (i : Nat) {x y : Option Tree} (h : Tree.ReorderedInput x y)
    (default : Option Value) : (U.load S i x default).Agrees Value.Same (U.load S i y default) := by
  unfold load
  cases hp : U.loads[i]? with
  | none => exact .left _
  | some p =>
    exact LoadProcedure.run_agrees (callLoad_agrees hU _ _) (hU p (List.mem_of_getElem? hp)) h _

end CompiledUnit
end TreeCodec
