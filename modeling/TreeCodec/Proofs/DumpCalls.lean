import TreeCodec.Procedure.Unit
import TreeCodec.Proofs.Nesting
import TreeCodec.Proofs.ValueParts

/-!
The calls that dump procedures make.

A procedure calls the procedures that its expressions name, on its value or on values within it.
-/
namespace TreeCodec

namespace Dump

-- A value that is handed on unchanged, or one within it.
def Under (w v : Value) : Prop :=
  w = v ∨ w.size < v.size

namespace Under

variable {u v w : Value}

theorem refl (v : Value) : Under v v :=
  .inl rfl

theorem trans (h₁ : Under u v) (h₂ : Under v w) : Under u w := by
  rcases h₁ with rfl | h₁
  · exact h₂
  · rcases h₂ with rfl | h₂
    · exact .inr h₁
    · exact .inr <| Nat.lt_trans h₁ h₂

theorem some (v : Value) : Under v (.some v) :=
  .inr <| Nat.lt_succ_self _

theorem boxed (v : Value) : Under v (.boxed v) :=
  .inr <| Nat.lt_succ_self _

theorem union (id : String) (i : Nat) (v : Value) : Under v (.union id i v) :=
  .inr <| Nat.lt_succ_self _

theorem item {k : ListKind} {t : Ty} {vs : List Value} (h : v ∈ vs) : Under v (.list k t vs) :=
  .inr <| Nat.lt_succ_of_le <| Value.size_le_sizeList h

theorem element {vs : List Value} (h : v ∈ vs) : Under v (.tuple vs) :=
  .inr <| Nat.lt_succ_of_le <| Value.size_le_sizeList h

theorem field {id : String} {vs : List Value} (h : v ∈ vs) : Under v (.record id vs) :=
  .inr <| Nat.lt_succ_of_le <| Value.size_le_sizeList h

theorem key {kind : MapKind} {t t' : Ty} {es : List (Value × Value)} (h : (v, w) ∈ es) :
    Under v (.map kind t t' es) := by
  have := Value.size_le_sizeEntries h
  exact .inr <| by simp only [Value.size]; omega

theorem value {kind : MapKind} {t t' : Ty} {es : List (Value × Value)} (h : (v, w) ∈ es) :
    Under w (.map kind t t' es) := by
  have := Value.size_le_sizeEntries h
  exact .inr <| by simp only [Value.size]; omega

end Under

section Rules

variable {S : Schema} {C : Type} {may : C → Prop} {T T' : (C → Run Tree) → Rule} {v : Value}
  {t : Ty}

theorem scalar_finished (k : ScalarTy) (v : Value) : (scalar k v).Finished := by
  show Run.Finished (Run.ofExcept (k.toScalar v) >>= fun x => pure x.toTree)
  cases k.toScalar v <;> exact nofun

theorem tree_finished (t : Ty) (v : Value) : (tree S t v).Finished :=
  Run.ofExcept_finished _

theorem hook_finished (h : DumpHook) (v : Value) : (hook h v).Finished := by
  unfold hook
  split <;> exact nofun

theorem keyText_finished (t : Tree) : (keyText t).Finished := by
  unfold keyText
  split <;> exact nofun

-- What is read from a value, or the fault.
theorem ofExcept_sequential {α : Type} {x : Except SchemaError α}
    {T : α → (C → Run Tree) → Run Tree}
    (h : ∀ a, x = .ok a → Sequential may (T a)) :
    Sequential may fun call => Run.ofExcept x >>= fun a => T a call := by
  cases x with
  | ok a => exact h a rfl
  | error e => exact .ended (r := Run.fault (.schema e)) nofun

theorem optional_sequential (h : ∀ w, Under w v → Sequential may fun call => T call w) :
    Sequential may fun call => optional S t (T call) v := by
  refine ofExcept_sequential fun o ho => ?_
  have ⟨_, ho⟩ := Schema.optionValue_eq_ok_iff.mp ho
  cases o with
  | none => exact .ended nofun
  | some w =>
    obtain rfl : v = .some w := ho
    exact h w (.some w)

theorem boxed_sequential (h : ∀ w, Under w v → Sequential may fun call => T call w) :
    Sequential may fun call => boxed S t (T call) v := by
  refine ofExcept_sequential fun w hw => ?_
  obtain ⟨_, rfl⟩ := Schema.boxValue_eq_ok_iff.mp hw
  exact h w (.boxed w)

theorem list_sequential (h : ∀ w, Under w v → Sequential may fun call => T call w) :
    Sequential may fun call => list S t (T call) v := by
  refine ofExcept_sequential fun vs hvs => ?_
  obtain ⟨_, _, _, rfl⟩ := Schema.listItems_eq_ok_iff.mp hvs
  refine (Sequential.forEach (fun i w hw => ?_) 0).bind fun _ => .ended nofun
  exact (h w (.item hw)).within _

theorem map_sequential {kind : MapKind}
    (hk : ∀ w, Under w v → Sequential may fun call => T call w)
    (hv : ∀ w, Under w v → Sequential may fun call => T' call w) :
    Sequential may fun call => map S t kind (T call) (T' call) v := by
  refine ofExcept_sequential fun es hes => ?_
  obtain ⟨_, _, _, _, rfl⟩ := Schema.mapEntries_eq_ok_iff.mp hes
  refine (Sequential.forEach (fun i e he => ?_) 0).bind fun _ => .ended nofun
  refine (hk e.1 (.key he)).bind fun key => .const_bind (keyText_finished key) fun name => ?_
  exact ((hv e.2 (.value he)).within _).bind fun _ => .ended nofun

theorem union_sequential {Ts : (C → Run Tree) → List Rule}
    (h : ∀ i w, Under w v → Sequential may fun call =>
      match (Ts call)[i]? with
      | some dump => dump w
      | none => Run.fault (.schema (.noVariant (S.path t) i))) :
    Sequential may fun call => union S t (Ts call) v := by
  refine ofExcept_sequential fun (i, w) hw => ?_
  obtain ⟨_, _, rfl⟩ := Schema.activeVariant_eq_ok_iff.mp hw
  exact h i w (.union _ i w)

end Rules
end Dump

-- Calls on a value or on values within it.
def DumpsUnder (v : Value) (c : Nat × Value) : Prop :=
  Dump.Under c.2 v

namespace DumpSource

variable {S : Schema} {C : Type} {may : C → Prop} {T : (C → Run Tree) → Dump.Rule} {v : Value}
  {frame : DumpFrame}

theorem lookup_cases (h : ∀ w ∈ frame, Dump.Under w v) (up : Nat) :
    (∃ w, lookup frame up = pure w ∧ Dump.Under w v) ∨ lookup frame up = Run.fault .missing := by
  unfold lookup
  cases hw : frame[up]? with
  | none => exact .inr rfl
  | some w => exact .inl ⟨w, rfl, h w <| List.mem_of_getElem? hw⟩

theorem part_cases {x : Except SchemaError (Option Value)}
    (h : ∀ w, x = .ok (some w) → Dump.Under w v) :
    (∃ w, Dump.part x = pure w ∧ Dump.Under w v) ∨ ∃ e, Dump.part x = Run.fail e := by
  match x with
  | .error e => exact .inr ⟨_, rfl⟩
  | .ok none => exact .inr ⟨_, rfl⟩
  | .ok (some w) => exact .inl ⟨w, rfl, h w rfl⟩

theorem read_cases (s : DumpSource) (h : ∀ w ∈ frame, Dump.Under w v) :
    (∃ w, s.read S frame = pure w ∧ Dump.Under w v) ∨ ∃ e, s.read S frame = Run.fail e := by
  cases s with
  | var up =>
    rcases lookup_cases h up with hw | he
    · exact .inl hw
    · exact .inr ⟨_, he⟩
  | attr up record i name =>
    simp only [read]
    rcases lookup_cases h up with ⟨w, hw, hu⟩ | he
    · rw [hw]
      refine part_cases fun u hu' => ?_
      obtain ⟨_, _, vs, rfl, hi⟩ := Schema.getField_eq_ok_iff.mp hu'
      exact .trans (.field (List.mem_of_getElem? hi)) hu
    · exact .inr ⟨_, by rw [he]; rfl⟩
  | element up tuple i =>
    simp only [read]
    rcases lookup_cases h up with ⟨w, hw, hu⟩ | he
    · rw [hw]
      refine part_cases fun u hu' => ?_
      obtain ⟨_, vs, rfl, hi⟩ := Schema.getElement_eq_ok_iff.mp hu'
      exact .trans (.element (List.mem_of_getElem? hi)) hu
    · exact .inr ⟨_, by rw [he]; rfl⟩

theorem feed_sequential (s : DumpSource) (hf : ∀ w ∈ frame, Dump.Under w v)
    (h : ∀ w, Dump.Under w v → Sequential may fun call => T call w) :
    Sequential may fun call => s.feed S frame (T call) := by
  have hread : Sequential may fun call => s.read S frame >>= T call := by
    rcases s.read_cases (S := S) hf with ⟨w, hw, hu⟩ | ⟨e, he⟩
    · simp only [hw]
      exact h w hu
    · simp only [he]
      exact .ended (r := Run.fail e) nofun
  cases s with
  | var => exact hread
  | attr => exact hread.within _
  | element => exact hread.within _

end DumpSource

namespace DumpExpr

variable {S : Schema} {v : Value}

mutual

theorem eval_sequential : ∀ (e : DumpExpr) {frame : DumpFrame}, (∀ w ∈ frame, Dump.Under w v) →
    Sequential (DumpsUnder v) fun call => e.eval S (fun i w => call (i, w)) frame
  | .scalar s k, _, hf => s.feed_sequential hf fun w _ => .ended <| Dump.scalar_finished k w
  | .tree s ty, _, hf => s.feed_sequential hf fun w _ => .ended <| Dump.tree_finished ty w
  | .hook s h, _, hf => s.feed_sequential hf fun w _ => .ended <| Dump.hook_finished h w
  | .call s _, _, hf => s.feed_sequential hf fun _ hw => .call hw
  | .optional s _ e, _, hf => s.feed_sequential hf fun _ hw => Dump.optional_sequential fun _ hu =>
    eval_sequential e <| List.forall_mem_cons.mpr ⟨hu.trans hw, hf⟩
  | .boxed s _ e, _, hf => s.feed_sequential hf fun _ hw => Dump.boxed_sequential fun _ hu =>
    eval_sequential e <| List.forall_mem_cons.mpr ⟨hu.trans hw, hf⟩
  | .list s _ e, _, hf => s.feed_sequential hf fun _ hw => Dump.list_sequential fun _ hu =>
    eval_sequential e <| List.forall_mem_cons.mpr ⟨hu.trans hw, hf⟩
  | .map s _ _ k e, _, hf => s.feed_sequential hf fun _ hw => Dump.map_sequential
    (fun _ hu => eval_sequential k <| List.forall_mem_cons.mpr ⟨hu.trans hw, hf⟩)
    (fun _ hu => eval_sequential e <| List.forall_mem_cons.mpr ⟨hu.trans hw, hf⟩)
  | .union s _ es, _, hf => s.feed_sequential hf fun _ hw => Dump.union_sequential fun i _ hu =>
    evalList_sequential es i hf (hu.trans hw) nofun

theorem evalList_sequential : ∀ (es : List DumpExpr) (i : Nat) {frame : DumpFrame} {w : Value}
    {error : Run Tree}, (∀ w ∈ frame, Dump.Under w v) → Dump.Under w v → error.Finished →
    Sequential (DumpsUnder v) fun call =>
      match (evalList S (fun i w => call (i, w)) es frame)[i]? with
      | some dump => dump w
      | none => error
  | [], _, _, _, _, _, _, he => .ended he
  | e :: _, 0, _, _, _, hf, hw, _ =>
    eval_sequential e <| List.forall_mem_cons.mpr ⟨hw, hf⟩
  | _ :: es, i + 1, _, _, _, hf, hw, he => evalList_sequential es i hf hw he

end

end DumpExpr

namespace DumpProcedure

variable {S : Schema} {v : Value}

theorem insertAll_sequential {frame : DumpFrame} (hf : ∀ w ∈ frame, Dump.Under w v)
    (entries : List (String × Tree)) (is : List Insertion) :
    Sequential (DumpsUnder v) fun call =>
      insertAll S (fun i w => call (i, w)) frame entries is := by
  induction is generalizing entries with
  | nil => exact .ended nofun
  | cons i is ih => exact (i.value.eval_sequential hf).bind fun t => ih _

theorem run_sequential (p : DumpProcedure) (S : Schema) (v : Value) :
    Sequential (DumpsUnder v) fun call => p.run S (fun i w => call (i, w)) v := by
  have hf : ∀ w ∈ [v], Dump.Under w v := fun w hw => List.mem_singleton.mp hw ▸ .refl v
  refine Sequential.through ?_ p.name
  unfold evalBody
  cases p.body with
  | mapping is => exact (insertAll_sequential hf [] is).bind fun _ => .ended nofun
  | sequence es =>
    refine (Sequential.forEach (fun _ e _ => ?_) 0).bind fun _ => .ended nofun
    exact e.eval_sequential hf
  | value e => exact e.eval_sequential hf

end DumpProcedure

namespace CompiledUnit

variable (U : CompiledUnit) (S : Schema)

-- What the procedure at a place does on a value.
def dumpBody (c : Nat × Value) (call : Nat × Value → Run Tree) : Run Tree :=
  match U.dumps[c.1]? with
  | some p => p.run S (fun i w => call (i, w)) c.2
  | none => Run.unfinished

theorem callDump_eq_nest (n i : Nat) (v : Value) :
    U.callDump S n i v = nest (U.dumpBody S) n (i, v) := by
  induction n generalizing i v with
  | zero => rfl
  | succ n ih =>
    have hcall : U.callDump S n = fun i w => nest (U.dumpBody S) n (i, w) :=
      funext fun i => funext fun w => ih i w
    cases hp : U.dumps[i]? with
    | none   => simp only [callDump, nest, dumpBody, hp]
    | some p => simp only [callDump, nest, dumpBody, hp, hcall]

theorem dumps_descend :
    Descends (U.dumpBody S) (fun v => v.size - 1) (List.range U.dumps.length) where
  calls k hk v := by
    have hk := List.mem_range.mp hk
    refine .of_eq ((U.dumps[k].run_sequential S v).imp fun c hc => ?_) fun call => ?_
    · have := c.2.size_pos
      exact hc.imp_right fun hlt => by omega
    · simp only [dumpBody, List.getElem?_eq_getElem hk]
  missing k hk v call := by
    have hk : U.dumps[k]? = none := by simpa using hk
    simp only [dumpBody, hk]
    rfl

-- No number of nested calls lets a run end that does not end within the budget.
theorem callDump_upto_dump (n i : Nat) (v : Value) :
    (U.callDump S n i v).Upto (U.dump S i v) := by
  have hdump : U.dump S i v = U.callDump S (U.dumpBudget v + 1) i v := by
    simp only [dump, callDump]
  rw [hdump, callDump_eq_nest, callDump_eq_nest]
  refine Descends.Settled.upto (U.dumps_descend S) ?_ n
  have hs := (U.dumps_descend S).settled v
  rw [List.length_range, Nat.sub_add_cancel v.size_pos] at hs
  exact hs.mono (U.dumps_descend S) <| Nat.le_succ _

end CompiledUnit
end TreeCodec
