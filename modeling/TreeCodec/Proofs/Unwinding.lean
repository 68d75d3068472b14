import TreeCodec.Procedure.Meaning
import TreeCodec.Proofs.RunFailure

/-!
Which errors leave the body of a procedure.

An error arises in the body, or a call that the body makes leaves it behind. On its way out steps
are added to its path, and nothing is added to its trail.
-/
namespace TreeCodec

/-! ## Calls that pass errors on -/

namespace Expr

variable (d : Direction)

mutual

-- The procedures that an expression calls and whose errors it passes on. A union is loaded by
-- trying its variants, so their errors go no further.
def passes : Expr → List String
  | leaf .. => []
  | call p _ => [p]
  | optional _ _ _ e | boxed _ _ _ e | list _ _ _ e => passes e
  | map _ _ _ k _ e => passes k ++ passes e
  | union _ _ _ es =>
    match d with
    | .load => []
    | .dump => passesAll es

def passesAll : List Expr → List String
  | [] => []
  | e :: es => passes e ++ passesAll es

end

mutual

theorem passes_subset_calls : ∀ (d : Direction) (e : Expr), e.passes d ⊆ e.calls
  | _, leaf .. | _, call .. => List.Subset.refl _
  | d, optional _ _ _ e | d, boxed _ _ _ e | d, list _ _ _ e => passes_subset_calls d e
  | d, map _ _ _ k _ e =>
    List.append_subset.mpr ⟨
      List.subset_append_of_subset_left _ <| passes_subset_calls d k,
      List.subset_append_of_subset_right _ <| passes_subset_calls d e⟩
  | .load, union .. => List.nil_subset _
  | .dump, union _ _ _ es => passesAll_subset_callsList .dump es

theorem passesAll_subset_callsList :
    ∀ (d : Direction) (es : List Expr), passesAll d es ⊆ callsList es
  | _, [] => List.Subset.refl _
  | d, e :: es =>
    List.append_subset.mpr ⟨
      List.subset_append_of_subset_left _ <| passes_subset_calls d e,
      List.subset_append_of_subset_right _ <| passesAll_subset_callsList d es⟩

end

end Expr

def Stmt.passes (d : Direction) (stmt : Stmt) : List String :=
  stmt.exprs.flatMap (Expr.passes d)

def Procedure.passes (d : Direction) (p : Procedure) : List String :=
  p.body.flatMap (Stmt.passes d)

theorem Procedure.passes_subset_calls (d : Direction) (p : Procedure) : p.passes d ⊆ p.calls := by
  intro name h
  have ⟨stmt, hs, h⟩ := List.mem_flatMap.mp h
  have ⟨e, he, h⟩ := List.mem_flatMap.mp h
  have hcalls := Expr.passes_subset_calls d e h
  exact List.mem_flatMap.mpr ⟨stmt, hs, List.mem_flatMap.mpr ⟨e, he, hcalls⟩⟩

/-! ## Rules -/

-- The errors of a rule have a property.
def Load.Rule.FailsWith (E : ConversionError → Prop) (rule : Load.Rule) : Prop :=
  ∀ x, (rule x).FailsWith E

def Dump.Rule.FailsWith (E : ConversionError → Prop) (rule : Dump.Rule) : Prop :=
  ∀ v, (rule v).FailsWith E

-- A property of errors that only the trail can take away.
structure OfTrail (E : ConversionError → Prop) : Prop where
  fault  : ∀ f, E { fault := f }
  within : ∀ e step, E e → E (e.within step)

section Rules

variable {E : ConversionError → Prop} (hE : OfTrail E) {S : Schema} {α : Type}
include hE

theorem OfTrail.ofExcept (x : Except SchemaError α) : (Run.ofExcept x).FailsWith E :=
  .ofExcept fun _ => hE.fault _

theorem OfTrail.within_run {x : Run α} (h : x.FailsWith E) (step : PathStep) :
    (x.within step).FailsWith E :=
  .within <| h.imp fun e => hE.within e step

namespace Load

variable {rule rule' : Rule} {t u v : Ty}

theorem required_failsWith (x : Option Tree) : (required x).FailsWith E := by
  cases x with
  | none => exact .fault <| hE.fault _
  | some t => exact .pure t

theorem scalar_failsWith (k : ScalarTy) : (scalar k).FailsWith E := by
  intro x
  refine (required_failsWith hE x).bind fun t _ => ?_
  split
  · exact hE.ofExcept _
  · exact .fault <| hE.fault _

theorem tree_failsWith : (tree t).FailsWith E := fun x =>
  (required_failsWith hE x).bind fun _ _ => .pure _

theorem hook_failsWith (h : LoadHook) : (hook h).FailsWith E := by
  intro x
  refine (required_failsWith hE x).bind fun t _ => ?_
  split
  · exact .pure _
  · exact .fault <| hE.fault _

theorem optional_failsWith (h : rule.FailsWith E) : (optional S t rule).FailsWith E := by
  intro x
  unfold optional
  split
  · exact .pure _
  · exact .pure _
  · exact (h _).bind fun _ _ => hE.ofExcept _

theorem boxed_failsWith (h : rule.FailsWith E) : (boxed S t rule).FailsWith E := fun x =>
  (h x).bind fun _ _ => hE.ofExcept _

theorem list_failsWith (h : rule.FailsWith E) : (list S t u rule).FailsWith E := by
  intro x
  refine (required_failsWith hE x).bind fun t _ => ?_
  split
  · refine .bind (.forEach 0 fun _ _ _ => hE.within_run (h _) _) fun _ _ => hE.ofExcept _
  · exact .fault <| hE.fault _

theorem map_failsWith {kind : MapKind} (h : rule.FailsWith E) (h' : rule'.FailsWith E) :
    (map S t kind u v rule rule').FailsWith E := by
  intro x
  refine (required_failsWith hE x).bind fun t _ => ?_
  split
  · refine .bind (.forEach 0 fun _ e _ => ?_) fun _ _ => hE.ofExcept _
    refine (hE.within_run (h _) _).bind fun _ _ => ?_
    exact (hE.within_run (h' _) _).bind fun _ _ => .pure _
  · exact .fault <| hE.fault _

-- Whatever the variants fail with.
theorem union_failsWith (variants : List Variant) (rules : List Rule) :
    (union S t variants rules).FailsWith E := by
  intro x
  refine (required_failsWith hE x).bind fun x _ => ?_
  have h (i : Nat) : (firstOf S t variants x i rules).FailsWith E := by
    induction rules generalizing i with
    | nil => exact .fault <| hE.fault _
    | cons rule rules ih =>
      intro e he
      simp only [firstOf] at he
      split at he
      case h_1 => exact hE.ofExcept _ e he
      case h_2 => exact ih (i + 1) e he
      case h_3 => cases he
  exact h 0

theorem entry_failsWith (key : String) (x : Option Tree) : (entry key x).FailsWith E := by
  unfold entry
  split
  · exact .pure _
  · exact .fault <| hE.fault _
  · exact .fault <| hE.fault _

theorem element_failsWith (i : Nat) (x : Option Tree) : (element i x).FailsWith E := by
  unfold element
  split
  · exact .pure _
  · exact .fault <| hE.fault _
  · exact .fault <| hE.fault _

theorem checkMapping_failsWith (x : Option Tree) : (checkMapping x).FailsWith E := by
  refine (required_failsWith hE x).bind fun t _ => ?_
  split
  · exact .pure _
  · exact .fault <| hE.fault _

theorem checkSequence_failsWith (min len : Nat) (x : Option Tree) :
    (checkSequence min len x).FailsWith E := by
  refine (required_failsWith hE x).bind fun t _ => ?_
  split
  · split
    · exact .fault <| hE.fault _
    · split
      · exact .fault <| hE.fault _
      · exact .pure _
  · exact .fault <| hE.fault _

theorem checkKeys_failsWith (keys : List String) (x : Option Tree) :
    (checkKeys keys x).FailsWith E := by
  unfold checkKeys
  split
  · split
    · exact hE.within_run (.fault <| hE.fault _) _
    · exact .pure _
  · exact .pure _

end Load

namespace Dump

variable {rule rule' : Rule} {t : Ty}

theorem scalar_failsWith (k : ScalarTy) : (scalar k).FailsWith E := fun _ =>
  (hE.ofExcept _).bind fun _ _ => .pure _

theorem tree_failsWith : (tree S t).FailsWith E := fun _ =>
  hE.ofExcept _

theorem hook_failsWith (h : DumpHook) : (hook h).FailsWith E := by
  intro v
  unfold hook
  split
  · exact .pure _
  · exact .fault <| hE.fault _

theorem optional_failsWith (h : rule.FailsWith E) : (optional S t rule).FailsWith E := by
  intro v
  refine (hE.ofExcept _).bind fun o _ => ?_
  cases o with
  | none => exact .pure _
  | some w => exact h w

theorem boxed_failsWith (h : rule.FailsWith E) : (boxed S t rule).FailsWith E := fun _ =>
  (hE.ofExcept _).bind fun w _ => h w

theorem list_failsWith (h : rule.FailsWith E) : (list S t rule).FailsWith E := by
  intro v
  refine (hE.ofExcept _).bind fun _ _ => .bind (.forEach 0 fun _ w _ => ?_) fun _ _ => .pure _
  exact hE.within_run (h w) _

theorem keyText_failsWith (t : Tree) : (keyText t).FailsWith E := by
  unfold keyText
  split
  · exact .pure _
  · exact .fault <| hE.fault _

theorem map_failsWith {kind : MapKind} (h : rule.FailsWith E) (h' : rule'.FailsWith E) :
    (map S t kind rule rule').FailsWith E := by
  intro v
  refine (hE.ofExcept _).bind fun _ _ => .bind (.forEach 0 fun _ e _ => ?_) fun _ _ => .pure _
  refine (h e.1).bind fun key _ => (keyText_failsWith hE key).bind fun name _ => ?_
  exact (hE.within_run (h' e.2) _).bind fun _ _ => .pure _

theorem union_failsWith {rules : List Rule} (h : ∀ rule ∈ rules, rule.FailsWith E) :
    (union S t rules).FailsWith E := by
  intro v
  refine (hE.ofExcept _).bind fun (i, w) _ => ?_
  dsimp only
  split
  case h_1 rule hi => exact h rule (List.mem_of_getElem? hi) w
  case h_2 => exact .fault <| hE.fault _

theorem part_failsWith (found : Except SchemaError (Option Value)) :
    (part found).FailsWith E := by
  refine (hE.ofExcept _).bind fun o _ => ?_
  cases o with
  | none => exact .fault <| hE.fault _
  | some v => exact .pure v

end Dump
end Rules

/-! ## Expressions and bodies -/

namespace Meaning

variable {E : ConversionError → Prop} (hE : OfTrail E) {S : Schema} {locals : Locals}

theorem lookup_failsWith {α : Type} (env : Env α) (x : String) : (lookup env x).FailsWith E := by
  unfold lookup
  split
  · exact .pure _
  · exact .unfinished

include hE

theorem locate_failsWith {α : Type} {r : Run α} (h : r.FailsWith E) :
    ∀ arg, (locate r arg).FailsWith E
  | .var _ => h
  | .key .. | .attr .. | .item .. | .element .. => hE.within_run h _

section Loading

variable {callee : String → Load.Rule}

theorem readTree_failsWith (env : Env (Option Tree)) : ∀ arg, (readTree env arg).FailsWith E
  | .var x => lookup_failsWith env x
  | .key x key => (lookup_failsWith env x).bind fun t _ => Load.entry_failsWith hE key t
  | .item x i => (lookup_failsWith env x).bind fun t _ => Load.element_failsWith hE i t
  | .attr .. | .element .. => .unfinished

theorem feedTree_failsWith {rule : Load.Rule} (h : rule.FailsWith E)
    (env : Env (Option Tree)) (arg : Operand) : (feedTree env arg rule).FailsWith E :=
  locate_failsWith hE ((readTree_failsWith hE env arg).bind fun x _ => h x) arg

theorem loadLeaf_failsWith (helper : String) : (loadLeaf S locals helper).FailsWith E := by
  unfold loadLeaf
  split
  · split
    · exact Load.scalar_failsWith hE _
    · exact Load.tree_failsWith hE
    · exact fun _ => .unfinished
  · exact Load.hook_failsWith hE _
  · exact fun _ => .unfinished

theorem loadExpr_failsWith : ∀ (e : Expr) (env : Env (Option Tree)),
    (∀ name ∈ e.passes .load, (callee name).FailsWith E) →
      (loadExpr S locals callee e env).FailsWith E
  | .leaf .., env, _ => feedTree_failsWith hE (loadLeaf_failsWith hE _) env _
  | .call name _, env, h => feedTree_failsWith hE (h name <| List.mem_singleton_self _) env _
  | .optional _ _ _ e, env, h => by
    unfold loadExpr
    split
    · refine feedTree_failsWith hE (Load.optional_failsWith hE fun _ => ?_) env _
      exact loadExpr_failsWith e _ h
    · exact .unfinished
  | .boxed _ _ _ e, env, h => by
    unfold loadExpr
    split
    · refine feedTree_failsWith hE (Load.boxed_failsWith hE fun _ => ?_) env _
      exact loadExpr_failsWith e _ h
    · exact .unfinished
  | .list _ _ _ e, env, h => by
    unfold loadExpr
    split
    · refine feedTree_failsWith hE (Load.list_failsWith hE fun _ => ?_) env _
      exact loadExpr_failsWith e _ h
    · exact .unfinished
  | .map _ _ _ k _ e, env, h => by
    have hk := fun name hn => h name <| List.mem_append_left _ hn
    have he := fun name hn => h name <| List.mem_append_right _ hn
    unfold loadExpr
    split
    · exact feedTree_failsWith hE (Load.map_failsWith hE (fun _ => loadExpr_failsWith k _ hk)
        fun _ => loadExpr_failsWith e _ he) env _
    · exact .unfinished
  | .union .., env, _ => by
    unfold loadExpr
    split
    · exact feedTree_failsWith hE (Load.union_failsWith hE _ _) env _
    · exact .unfinished

theorem assigned_failsWith {e : Expr} (h : ∀ name ∈ e.passes .load, (callee name).FailsWith E)
    (env : Env (Option Tree)) (arg : Operand) (default : Option String) :
    (assigned S locals callee env arg e default).FailsWith E := by
  have hread := locate_failsWith hE (readTree_failsWith hE env arg) arg
  unfold assigned
  split
  case h_1 => exact hread.bind fun _ _ => loadExpr_failsWith hE e env h
  case h_2 =>
    split
    · refine hread.bind fun o _ => ?_
      cases o with
      | none => exact .pure _
      | some t => exact loadExpr_failsWith hE e env h
    · exact .unfinished

theorem loadBody_failsWith (env : Env (Option Tree)) : ∀ (stmts : List Stmt) (slots : List Value),
    (∀ name ∈ stmts.flatMap (Stmt.passes .load), (callee name).FailsWith E) →
      (loadBody S locals callee env slots stmts).FailsWith E
  | [], _, _ => by unfold loadBody; exact .unfinished
  | stmt :: rest, slots, h => by
    rw [List.flatMap_cons, List.forall_mem_append] at h
    have hrest := fun slots => loadBody_failsWith env rest slots h.right
    cases stmt with
    | beginMapping arg =>
      exact (readTree_failsWith hE env arg).bind fun t _ =>
        (Load.checkMapping_failsWith hE t).bind fun _ _ => hrest slots
    | beginSequence arg min len =>
      exact (readTree_failsWith hE env arg).bind fun t _ =>
        (Load.checkSequence_failsWith hE min len t).bind fun _ _ => hrest slots
    | rejectUnknownKeys arg keys =>
      exact (readTree_failsWith hE env arg).bind fun t _ =>
        (Load.checkKeys_failsWith hE keys t).bind fun _ _ => hrest slots
    | assign slot arg e default =>
      simp only [Stmt.passes, Stmt.exprs, List.flatMap_singleton] at h
      refine (assigned_failsWith hE h.left env arg default).bind fun v _ => ?_
      split
      · exact hrest _
      · exact .unfinished
    | construct cls =>
      unfold loadBody
      split
      · exact hE.ofExcept _
      · exact .unfinished
    | returnValue e =>
      simp only [Stmt.passes, Stmt.exprs, List.flatMap_singleton] at h
      exact loadExpr_failsWith hE e env h.left
    | openMapping | openSequence | insert | push | returnOutput =>
      unfold loadBody
      exact .unfinished

end Loading

section Dumping

variable {callee : String → Dump.Rule}

theorem readValue_failsWith (env : Env Value) :
    ∀ arg, (readValue S locals env arg).FailsWith E
  | .var x => lookup_failsWith env x
  | .attr x .. | .element x .. => by
    dsimp only [readValue]
    split
    · exact (lookup_failsWith env x).bind fun _ _ => Dump.part_failsWith hE _
    · exact .unfinished
  | .key .. | .item .. => .unfinished

theorem feedValue_failsWith {rule : Dump.Rule} (h : rule.FailsWith E) (env : Env Value)
    (arg : Operand) : (feedValue S locals env arg rule).FailsWith E :=
  locate_failsWith hE ((readValue_failsWith hE env arg).bind fun v _ => h v) arg

theorem dumpLeaf_failsWith (helper : String) : (dumpLeaf S locals helper).FailsWith E := by
  unfold dumpLeaf
  split
  · split
    · exact Dump.scalar_failsWith hE _
    · exact Dump.tree_failsWith hE
    · exact fun _ => .unfinished
  · exact Dump.hook_failsWith hE _
  · exact fun _ => .unfinished

omit hE

mutual

theorem dumpExpr_failsWith (hE : OfTrail E) : ∀ (e : Expr) (env : Env Value),
    (∀ name ∈ e.passes .dump, (callee name).FailsWith E) →
      (dumpExpr S locals callee e env).FailsWith E
  | .leaf .., env, _ => feedValue_failsWith hE (dumpLeaf_failsWith hE _) env _
  | .call name _, env, h => feedValue_failsWith hE (h name <| List.mem_singleton_self _) env _
  | .optional _ _ _ e, env, h => by
    unfold dumpExpr
    split
    · refine feedValue_failsWith hE (Dump.optional_failsWith hE fun _ => ?_) env _
      exact dumpExpr_failsWith hE e _ h
    · exact .unfinished
  | .boxed _ _ _ e, env, h => by
    unfold dumpExpr
    split
    · refine feedValue_failsWith hE (Dump.boxed_failsWith hE fun _ => ?_) env _
      exact dumpExpr_failsWith hE e _ h
    · exact .unfinished
  | .list _ _ _ e, env, h => by
    unfold dumpExpr
    split
    · refine feedValue_failsWith hE (Dump.list_failsWith hE fun _ => ?_) env _
      exact dumpExpr_failsWith hE e _ h
    · exact .unfinished
  | .map _ _ _ k _ e, env, h => by
    have hk := fun name hn => h name <| List.mem_append_left _ hn
    have he := fun name hn => h name <| List.mem_append_right _ hn
    unfold dumpExpr
    split
    · exact feedValue_failsWith hE (Dump.map_failsWith hE (fun _ => dumpExpr_failsWith hE k _ hk)
        fun _ => dumpExpr_failsWith hE e _ he) env _
    · exact .unfinished
  | .union _ _ x es, env, h => by
    unfold dumpExpr
    split
    · have hrules := dumpExprs_failsWith hE x es env h
      exact feedValue_failsWith hE (Dump.union_failsWith hE hrules) env _
    · exact .unfinished

theorem dumpExprs_failsWith (hE : OfTrail E) : ∀ (x : String) (es : List Expr) (env : Env Value),
    (∀ name ∈ Expr.passesAll .dump es, (callee name).FailsWith E) →
      ∀ rule ∈ dumpExprs S locals callee x es env, rule.FailsWith E
  | _, [], _, _ => nofun
  | x, e :: es, env, h =>
    List.forall_mem_cons.mpr ⟨
      fun _ => dumpExpr_failsWith hE e _ fun name hn => h name <| List.mem_append_left _ hn,
      dumpExprs_failsWith hE x es env fun name hn => h name <| List.mem_append_right _ hn⟩

end

theorem dumpBody_failsWith (hE : OfTrail E) (env : Env Value) :
    ∀ (stmts : List Stmt) (output : Option Tree),
    (∀ name ∈ stmts.flatMap (Stmt.passes .dump), (callee name).FailsWith E) →
      (dumpBody S locals callee env output stmts).FailsWith E
  | [], _, _ => by unfold dumpBody; exact .unfinished
  | stmt :: rest, output, h => by
    rw [List.flatMap_cons, List.forall_mem_append] at h
    have hrest := fun output => dumpBody_failsWith hE env rest output h.right
    cases stmt with
    | openMapping | openSequence => exact hrest _
    | insert key e omitNull =>
      simp only [Stmt.passes, Stmt.exprs, List.flatMap_singleton] at h
      unfold dumpBody
      split
      · exact (dumpExpr_failsWith hE e env h.left).bind fun _ _ => hrest _
      · exact .unfinished
    | push e =>
      simp only [Stmt.passes, Stmt.exprs, List.flatMap_singleton] at h
      unfold dumpBody
      split
      · exact (dumpExpr_failsWith hE e env h.left).bind fun _ _ => hrest _
      · exact .unfinished
    | returnOutput =>
      unfold dumpBody
      split
      · exact .pure _
      · exact .unfinished
    | returnValue e =>
      simp only [Stmt.passes, Stmt.exprs, List.flatMap_singleton] at h
      exact dumpExpr_failsWith hE e env h.left
    | beginMapping | beginSequence | rejectUnknownKeys | assign | construct =>
      unfold dumpBody
      exact .unfinished

end Dumping
end Meaning

end TreeCodec
