import TreeCodec.Procedure.Unit
import TreeCodec.Proofs.Nesting
import TreeCodec.Proofs.PureRun

/-!
The calls that load procedures make.

A procedure calls the procedures that its expressions name, on its input, on trees within the input,
on keys of objects in it, or on an absent tree.
-/
namespace TreeCodec

namespace Tree

theorem depth_le_depthItems {t : Tree} {items : List Tree} (h : t ∈ items) :
    t.depth ≤ depthItems items := by
  induction items with
  | nil => nomatch h
  | cons u us ih =>
    rcases List.mem_cons.mp h with rfl | h
    · exact Nat.le_max_left ..
    · exact Nat.le_trans (ih h) <| Nat.le_max_right ..

theorem depth_le_depthEntries {k : String} {t : Tree} {entries : List (String × Tree)}
    (h : (k, t) ∈ entries) : t.depth ≤ depthEntries entries := by
  induction entries with
  | nil => nomatch h
  | cons e es ih =>
    rcases List.mem_cons.mp h with rfl | h
    · exact Nat.le_max_left ..
    · exact Nat.le_trans (ih h) <| Nat.le_max_right ..

end Tree

namespace Load

-- An absent tree is below every tree, and a tree is above the trees in it.
def level : Option Tree → Nat
  | none => 0
  | some t => t.depth + 1

-- An input that is handed on unchanged, or a lower one.
def Under (y x : Option Tree) : Prop :=
  y = x ∨ level y < level x

namespace Under

variable {x y z : Option Tree}

theorem refl (x : Option Tree) : Under x x :=
  .inl rfl

theorem trans (h₁ : Under x y) (h₂ : Under y z) : Under x z := by
  rcases h₁ with rfl | h₁
  · exact h₂
  · rcases h₂ with rfl | h₂
    · exact .inr h₁
    · exact .inr <| Nat.lt_trans h₁ h₂

theorem none (x : Option Tree) : Under .none x := by
  cases x with
  | none => exact refl _
  | some t => exact .inr <| Nat.succ_pos _

theorem item {t : Tree} {items : List Tree} (h : t ∈ items) :
    Under (some t) (some (.array items)) :=
  .inr <| Nat.succ_lt_succ <| Nat.lt_succ_of_le <| Tree.depth_le_depthItems h

theorem value {k : String} {t : Tree} {entries : List (String × Tree)} (h : (k, t) ∈ entries) :
    Under (some t) (some (.object entries)) :=
  .inr <| Nat.succ_lt_succ <| Nat.lt_succ_of_le <| Tree.depth_le_depthEntries h

theorem key (k : String) (entries : List (String × Tree)) :
    Under (some (.text k)) (some (.object entries)) :=
  .inr <| Nat.succ_lt_succ <| Nat.succ_pos _

theorem join {frame : LoadFrame} (h : ∀ y ∈ frame, Under y x) (up : Nat) :
    Under frame[up]?.join x := by
  cases hy : frame[up]? with
  | none => exact none x
  | some y => exact h y <| List.mem_of_getElem? hy

end Under

section Rules

variable {S : Schema} {C : Type} {may : C → Prop} {T T' : (C → Run Value) → Rule}
  {x : Option Tree}

theorem entry_cases (k : String) (x : Option Tree) :
    (∃ y, entry k x = pure y ∧ Under y x) ∨ ∃ e, entry k x = Run.fail e := by
  match x with
  | none => exact .inr ⟨_, rfl⟩
  | some (.object entries) =>
    refine .inl ⟨_, rfl, ?_⟩
    cases hy : Keyed.get? k entries with
    | none => exact .none _
    | some t => exact .value <| Keyed.mem_of_get? hy
  | some .null | some (.bool _) | some (.number _) | some (.text _) | some (.array _) =>
    exact .inr ⟨_, rfl⟩

theorem element_cases (i : Nat) (x : Option Tree) :
    (∃ y, element i x = pure y ∧ Under y x) ∨ ∃ e, element i x = Run.fail e := by
  match x with
  | none => exact .inr ⟨_, rfl⟩
  | some (.array items) =>
    refine .inl ⟨_, rfl, ?_⟩
    cases hy : items[i]? with
    | none => exact .none _
    | some t => exact .item <| List.mem_of_getElem? hy
  | some .null | some (.bool _) | some (.number _) | some (.text _) | some (.object _) =>
    exact .inr ⟨_, rfl⟩

theorem optional_sequential {t : Ty}
    (h : ∀ y, Under y x → Sequential may fun call => T call y) :
    Sequential may fun call => optional S t (T call) x := by
  match x with
  | none | some .null => exact .ended nofun
  | some (.bool _) | some (.number _) | some (.text _) | some (.array _) | some (.object _) =>
    exact (h _ (.refl _)).bind fun _ => .ended <| Run.ofExcept_finished _

theorem boxed_sequential {t : Ty}
    (h : ∀ y, Under y x → Sequential may fun call => T call y) :
    Sequential may fun call => boxed S t (T call) x :=
  (h _ (.refl _)).bind fun _ => .ended <| Run.ofExcept_finished _

theorem list_sequential {t item : Ty}
    (h : ∀ y, Under y x → Sequential may fun call => T call y) :
    Sequential may fun call => list S t item (T call) x := by
  match x with
  | none => exact .ended nofun
  | some (.array items) =>
    refine (Sequential.forEach (fun i t ht => ?_) 0).bind fun _ =>
      .ended <| Run.ofExcept_finished _
    exact (h _ (.item ht)).within _
  | some .null | some (.bool _) | some (.number _) | some (.text _) | some (.object _) =>
    exact .ended (r := mismatch .sequence _) nofun

theorem map_sequential {t key value : Ty} {kind : MapKind}
    (hk : ∀ y, Under y x → Sequential may fun call => T call y)
    (hv : ∀ y, Under y x → Sequential may fun call => T' call y) :
    Sequential may fun call => map S t kind key value (T call) (T' call) x := by
  match x with
  | none => exact .ended nofun
  | some (.object entries) =>
    refine (Sequential.forEach (fun i e he => ?_) 0).bind fun _ =>
      .ended <| Run.ofExcept_finished _
    refine ((hk _ (.key e.1 entries)).within _).bind fun k => ?_
    exact ((hv _ (.value he)).within _).bind fun _ => .ended nofun
  | some .null | some (.bool _) | some (.number _) | some (.text _) | some (.array _) =>
    exact .ended (r := mismatch .mapping _) nofun

-- The variants after one that was tried are tried only if that one was rejected.
theorem firstOf_sequential {t : Ty} {variants : List Variant} {input : Tree} {i : Nat}
    {Ts : (C → Run Value) → List Rule} (h : Sequential may fun call => T call (some input))
    (hs : Sequential may fun call => firstOf S t variants input (i + 1) (Ts call)) :
    Sequential may fun call => firstOf S t variants input i (T call :: Ts call) := by
  -- The rest of the search, as it goes on after the run `r` of the first rule.
  refine (h.andThen (fun r call => firstOf S t variants input i ((fun _ => r) :: Ts call))
    fun r hr => ?_).of_eq fun call => ?_
  · cases ho : r.outcome with
    | unfinished => exact absurd ho hr
    | done v =>
      simp only [firstOf, ho]
      exact .ended <| Run.ofExcept_finished _
    | failed e =>
      refine (hs.after (r.log ++ [rejected S t i e])).of_eq fun call => ?_
      simp [firstOf, ho, Run.after]
  · cases ho : (T call (some input)).outcome <;> simp [firstOf, ho, Run.unfinished]

end Rules
end Load

-- The procedures that an expression calls.
mutual

def LoadExpr.callees : LoadExpr → List Nat
  | scalar .. | tree .. | hook .. => []
  | call _ index => [index]
  | optional _ _ e | boxed _ _ e | list _ _ _ e => callees e
  | map _ _ _ _ _ k v => callees k ++ callees v
  | union _ _ _ es => calleesList es

def LoadExpr.calleesList : List LoadExpr → List Nat
  | [] => []
  | e :: es => callees e ++ calleesList es

end

def LoadProcedure.callees (p : LoadProcedure) : List Nat :=
  (p.assignments.flatMap fun a => a.value.callees) ++
    match p.result with
    | .construct _ => []
    | .value e => e.callees

-- What holds of all expressions of a procedure.
structure LoadProcedure.All (P : LoadExpr → Prop) (p : LoadProcedure) : Prop where
  assignments : ∀ a ∈ p.assignments, P a.value
  result      : ∀ e, p.result = .value e → P e

-- Calls of some procedures, by their places, on an input or below it.
def CallsUnder (callees : List Nat) (x : Option Tree) (c : Nat × Option Tree) : Prop :=
  c.1 ∈ callees ∧ Load.Under c.2 x

theorem CallsUnder.imp {is js : List Nat} {x : Option Tree} {c : Nat × Option Tree} (h : is ⊆ js) :
    CallsUnder is x c → CallsUnder js x c :=
  fun ⟨hi, hx⟩ => ⟨h hi, hx⟩

namespace LoadSource

variable {C : Type} {may : C → Prop} {T : (C → Run Value) → Load.Rule} {x : Option Tree}
  {frame : LoadFrame}

theorem read_cases (s : LoadSource) (h : ∀ y ∈ frame, Load.Under y x) :
    (∃ y, s.read frame = pure y ∧ Load.Under y x) ∨ ∃ e, s.read frame = Run.fail e := by
  cases s with
  | var up => exact .inl ⟨_, rfl, .join h up⟩
  | key up k =>
    rcases Load.entry_cases k frame[up]?.join with ⟨y, hy, hu⟩ | he
    · exact .inl ⟨y, hy, hu.trans <| .join h up⟩
    · exact .inr he
  | item up i =>
    rcases Load.element_cases i frame[up]?.join with ⟨y, hy, hu⟩ | he
    · exact .inl ⟨y, hy, hu.trans <| .join h up⟩
    · exact .inr he

theorem locate_sequential {α : Type} {T : (C → Run Value) → Run α} (s : LoadSource)
    (h : Sequential may T) : Sequential may fun call => s.locate (T call) := by
  cases s with
  | var => exact h
  | key => exact h.within _
  | item => exact h.within _

theorem feed_sequential (s : LoadSource) (hf : ∀ y ∈ frame, Load.Under y x)
    (h : ∀ y, Load.Under y x → Sequential may fun call => T call y) :
    Sequential may fun call => s.feed frame (T call) := by
  apply s.locate_sequential
  rcases s.read_cases hf with ⟨y, hy, hu⟩ | ⟨e, he⟩
  · simp only [hy]
    exact h y hu
  · simp only [he]
    exact .ended nofun

end LoadSource

namespace Load

variable {x : Option Tree}

theorem scalar_finished (s : ScalarTy) (x : Option Tree) : (scalar s x).Finished := by
  cases x with
  | none => rintro ⟨⟩
  | some t =>
    simp only [scalar, required, Run.pure_bind]
    split
    · exact Run.ofExcept_finished _
    · rintro ⟨⟩

theorem tree_finished (t : Ty) (x : Option Tree) : (tree t x).Finished := by
  cases x <;> exact nofun

theorem hook_finished (h : LoadHook) (x : Option Tree) : (hook h x).Finished := by
  cases x with
  | none => rintro ⟨⟩
  | some t =>
    simp only [hook, required, Run.pure_bind]
    split
    · rintro ⟨⟩
    · rintro ⟨⟩

end Load

namespace LoadExpr

variable {S : Schema} {x : Option Tree}

mutual

theorem eval_sequential : ∀ (e : LoadExpr) {frame : LoadFrame}, (∀ y ∈ frame, Load.Under y x) →
    Sequential (CallsUnder e.callees x) fun call => e.eval S (fun i y => call (i, y)) frame
  | .scalar s t, _, hf => s.feed_sequential hf fun y _ => .ended <| Load.scalar_finished t y
  | .tree s ty, _, hf => s.feed_sequential hf fun y _ => .ended <| Load.tree_finished ty y
  | .hook s h, _, hf => s.feed_sequential hf fun y _ => .ended <| Load.hook_finished h y
  | .call s i, _, hf => s.feed_sequential hf fun _ hy => .call ⟨List.mem_singleton_self i, hy⟩
  | .optional s _ e, _, hf => s.feed_sequential hf fun _ hy => Load.optional_sequential fun _ hz =>
    eval_sequential e <| List.forall_mem_cons.mpr ⟨hz.trans hy, hf⟩
  | .boxed s _ e, _, hf => s.feed_sequential hf fun _ hy => Load.boxed_sequential fun _ hz =>
    eval_sequential e <| List.forall_mem_cons.mpr ⟨hz.trans hy, hf⟩
  | .list s _ _ e, _, hf => s.feed_sequential hf fun _ hy => Load.list_sequential fun _ hz =>
    eval_sequential e <| List.forall_mem_cons.mpr ⟨hz.trans hy, hf⟩
  | .map s _ _ _ _ k v, _, hf => s.feed_sequential hf fun _ hy => Load.map_sequential
    (fun _ hz => (eval_sequential k <| List.forall_mem_cons.mpr ⟨hz.trans hy, hf⟩).imp
      fun _ => CallsUnder.imp <| List.subset_append_left ..)
    (fun _ hz => (eval_sequential v <| List.forall_mem_cons.mpr ⟨hz.trans hy, hf⟩).imp
      fun _ => CallsUnder.imp <| List.subset_append_right ..)
  | .union s _ _ es, _, hf => s.feed_sequential hf fun y hy =>
    match y with
    | none => .ended nofun
    | some _ => evalList_sequential es hf hy

theorem evalList_sequential : ∀ (es : List LoadExpr) {frame : LoadFrame} {t : Tree} {ty : Ty}
    {variants : List Variant} {i : Nat}, (∀ y ∈ frame, Load.Under y x) → Load.Under (some t) x →
    Sequential (CallsUnder (calleesList es) x) fun call =>
      Load.firstOf S ty variants t i (evalList S (fun i y => call (i, y)) es frame)
  | [], _, _, _, _, _, _, _ => .ended nofun
  | e :: es, _, _, _, _, _, hf, ht => Load.firstOf_sequential
    ((eval_sequential e <| List.forall_mem_cons.mpr ⟨ht, hf⟩).imp
      fun _ => CallsUnder.imp <| List.subset_append_left ..)
    ((evalList_sequential es hf ht).imp fun _ => CallsUnder.imp <| List.subset_append_right ..)

end

end LoadExpr

theorem Expectation.check_finished (e : Expectation) (x : Option Tree) : (e.check x).Finished := by
  cases e with
  | mapping =>
    match x with
    | none | some (.object _) => exact nofun
    | some .null | some (.bool _) | some (.number _) | some (.text _) | some (.array _) =>
      exact nofun
  | sequence min len =>
    match x with
    | some (.array items) =>
      show Run.Finished (if items.length < min then _ else if len < items.length then _ else _)
      split <;> try split
      all_goals exact nofun
    | none => exact nofun
    | some .null | some (.bool _) | some (.number _) | some (.text _) | some (.object _) =>
      exact nofun

theorem Load.checkKeys_finished (known : List String) (x : Option Tree) :
    (checkKeys known x).Finished := by
  unfold checkKeys
  split
  case h_1 => split <;> exact nofun
  case h_2 => exact nofun

theorem Assignment.eval_sequential {S : Schema} {x : Option Tree} {frame : LoadFrame}
    (a : Assignment) (hf : ∀ y ∈ frame, Load.Under y x) :
    Sequential (CallsUnder a.value.callees x) fun call =>
      a.eval S (fun i y => call (i, y)) frame := by
  refine .bind (T := fun _ => a.source.locate (a.source.read frame)) ?_ fun y => ?_
  · apply a.source.locate_sequential
    rcases a.source.read_cases hf with ⟨y, hy, _⟩ | ⟨e, he⟩
    · exact hy ▸ .ended nofun
    · exact he ▸ .ended nofun
  · cases y <;> cases a.default
    case none.some => exact .ended nofun
    all_goals exact a.value.eval_sequential hf

namespace LoadProcedure

def checkKind (p : LoadProcedure) (x : Option Tree) : Run Unit :=
  match p.expectation with
  | some e => e.check x
  | none => pure ()

def checkKnown (p : LoadProcedure) (x : Option Tree) : Run Unit :=
  match p.knownKeys with
  | some keys => Load.checkKeys keys x
  | none => pure ()

-- What is left of a body after its checks.
def fill (S : Schema) (callee : Nat → Load.Rule) (p : LoadProcedure) (x : Option Tree) :
    Run Value := do
  let values ← Run.forEach (fun _ a => a.eval S callee [x]) 0 p.assignments
  match p.result with
  | .construct ty => Run.ofExcept (S.construct ty values)
  | .value e => e.eval S callee [x]

theorem body_eq (S : Schema) (callee : Nat → Load.Rule) (p : LoadProcedure) (x : Option Tree) :
    p.body S callee x =
      p.checkKind x >>= fun _ => p.checkKnown x >>= fun _ => p.fill S callee x := by
  unfold body checkKind checkKnown
  cases p.expectation <;> cases p.knownKeys <;> rfl

theorem checkKind_finished (p : LoadProcedure) (x : Option Tree) : (p.checkKind x).Finished := by
  unfold checkKind
  cases p.expectation with
  | none => exact nofun
  | some e => exact e.check_finished x

theorem checkKnown_finished (p : LoadProcedure) (x : Option Tree) : (p.checkKnown x).Finished := by
  unfold checkKnown
  cases p.knownKeys with
  | none => exact nofun
  | some keys => exact Load.checkKeys_finished keys x

theorem fill_sequential (p : LoadProcedure) (S : Schema) (x : Option Tree) :
    Sequential (CallsUnder p.callees x) fun call => p.fill S (fun i y => call (i, y)) x := by
  have hf : ∀ y ∈ [x], Load.Under y x := fun y hy => List.mem_singleton.mp hy ▸ .refl x
  refine (Sequential.forEach (fun i a ha => ?_) 0).bind fun values => ?_
  · refine (a.eval_sequential hf).imp fun _ => CallsUnder.imp fun j hj => ?_
    exact List.mem_append_left _ <| List.mem_flatMap.mpr ⟨a, ha, hj⟩
  · cases hr : p.result with
    | construct ty => exact .ended <| Run.ofExcept_finished _
    | value e =>
      refine (e.eval_sequential hf).imp fun _ => CallsUnder.imp fun j hj => ?_
      exact List.mem_append_right _ <| by rwa [hr]

theorem body_sequential (p : LoadProcedure) (S : Schema) (x : Option Tree) :
    Sequential (CallsUnder p.callees x) fun call => p.body S (fun i y => call (i, y)) x := by
  simp only [body_eq]
  exact .const_bind (p.checkKind_finished x) fun _ => .const_bind (p.checkKnown_finished x) fun _ =>
    p.fill_sequential S x

theorem run_sequential (p : LoadProcedure) (S : Schema) (x : Option Tree) :
    Sequential (CallsUnder p.callees x) fun call => p.run S (fun i y => call (i, y)) x none := by
  cases x with
  | some t => exact (p.body_sequential S _).through _
  | none =>
    show Sequential _ fun call => if p.passesAbsent then
      (p.body S (fun i y => call (i, y)) none).through p.name else Run.fault .missing
    split
    · exact (p.body_sequential S _).through _
    · exact .ended nofun

end LoadProcedure

namespace CompiledUnit

variable (U : CompiledUnit) (S : Schema)

-- What the procedure at a place does on an input.
def loadBody (c : Nat × Option Tree) (call : Nat × Option Tree → Run Value) : Run Value :=
  match U.loads[c.1]? with
  | some p => p.run S (fun i y => call (i, y)) c.2 none
  | none => Run.unfinished

theorem callLoad_eq_nest (n i : Nat) (x : Option Tree) :
    U.callLoad S n i x = nest (U.loadBody S) n (i, x) := by
  induction n generalizing i x with
  | zero => rfl
  | succ n ih =>
    have hcall : U.callLoad S n = fun i y => nest (U.loadBody S) n (i, y) :=
      funext fun i => funext fun y => ih i y
    cases hp : U.loads[i]? with
    | none   => simp only [callLoad, nest, loadBody, hp]
    | some p => simp only [callLoad, nest, loadBody, hp, hcall]

theorem loads_descend :
    Descends (U.loadBody S) Load.level (List.range U.loads.length) where
  calls k hk x := by
    have hk := List.mem_range.mp hk
    refine .of_eq ((U.loads[k].run_sequential S x).imp fun _ h => h.right) fun call => ?_
    simp only [loadBody, List.getElem?_eq_getElem hk]
  missing k hk x call := by
    have hk : U.loads[k]? = none := by simpa using hk
    simp only [loadBody, hk]
    rfl

theorem level_lt_loadBudget (x : Option Tree) :
    U.loads.length * (Load.level x + 1) ≤ U.loadBudget x := by
  apply Nat.mul_le_mul_left
  cases x with
  | none => exact Nat.le_add_left ..
  | some t => exact Nat.le_succ _

-- No number of nested calls lets a run end that does not end within the budget.
theorem callLoad_upto_load (n i : Nat) (x : Option Tree) :
    (U.callLoad S n i x).Upto (U.load S i x none) := by
  have hload : U.load S i x none = U.callLoad S (U.loadBudget x + 1) i x := by
    simp only [load, callLoad]
  rw [hload, callLoad_eq_nest, callLoad_eq_nest]
  refine Descends.Settled.upto (U.loads_descend S) ?_ n
  refine ((U.loads_descend S).settled x).mono (U.loads_descend S) ?_
  rw [List.length_range]
  exact Nat.le_succ_of_le <| U.level_lt_loadBudget x

end CompiledUnit
end TreeCodec
