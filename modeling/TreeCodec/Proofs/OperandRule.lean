import TreeCodec.Proofs.Form
import TreeCodec.Proofs.PureRun
import TreeCodec.Proofs.Resolution

/-!
What compiled expressions do with what their operands read.

A compiled expression reads nothing but its operand, and an expression within it nothing but its
binder. So it is a rule for the operand, which is the same wherever the expression stands.
-/
namespace TreeCodec

theorem Scope.idxOf?_innermost (x : String) (scope : Scope) :
    List.idxOf? x (x :: scope) = some 0 := by
  simp [List.idxOf?, List.findIdx?, List.findIdx?.go]

variable {s : Settings} {name? : GuardKey → Option String} {L : Linker} {scope : Scope} {t : Ty}
  {arg : Operand} {e : Expr}

/-! ## Loading -/

namespace LoadExpr

-- The rules of expressions are over the rules of the procedures that they call.
abbrev Rule := (Nat → Load.Rule) → Load.Rule

-- An expression applies a rule to what a source reads.
def Applies (S : Schema) (e : LoadExpr) (source : LoadSource) (rule : Rule) : Prop :=
  ∀ callee frame, e.eval S callee frame = source.feed frame (rule callee)

variable {S : Schema} {le : LoadExpr} {x : String}

theorem exists_rule_of_binder
    (h : ∃ source rule, source.Resolves (x :: scope) (.var x) ∧ le.Applies S source rule) :
    ∃ rule : Rule, ∀ callee t frame, le.eval S callee (t :: frame) = rule callee t := by
  obtain ⟨source, rule, hs, happ⟩ := h
  cases hs with
  | var hx =>
    cases (Scope.idxOf?_innermost x scope).symm.trans hx
    exact ⟨rule, fun callee t frame => happ callee (t :: frame)⟩

end LoadExpr

theorem ExprFor.exists_loadRule (h : ExprFor s name? t arg e) (S : Schema) {le : LoadExpr}
    (hl : LoadLinked L scope e le) :
    ∃ source rule, source.Resolves scope arg ∧ le.Applies S source rule := by
  induction h generalizing scope le with
  | hook | leaf =>
    cases hl with
    | scalar hs | tree hs | hook hs => exact ⟨_, fun _ => _, hs, fun _ _ => by rw [LoadExpr.eval]⟩
  | call =>
    cases hl with
    | call hs => exact ⟨_, fun callee => callee _, hs, fun _ _ => by rw [LoadExpr.eval]⟩
  | optional _ _ ih =>
    cases hl with
    | @optional _ _ _ _ _ _ _ u _ hs _ hl =>
      have ⟨rule, hrule⟩ := LoadExpr.exists_rule_of_binder (ih hl)
      refine ⟨_, fun callee => Load.optional S u (rule callee), hs, fun _ _ => ?_⟩
      simp only [LoadExpr.eval, hrule]
  | boxed _ _ ih =>
    cases hl with
    | @boxed _ _ _ _ _ _ _ u _ hs _ hl =>
      have ⟨rule, hrule⟩ := LoadExpr.exists_rule_of_binder (ih hl)
      refine ⟨_, fun callee => Load.boxed S u (rule callee), hs, fun _ _ => ?_⟩
      simp only [LoadExpr.eval, hrule]
  | list _ _ ih =>
    cases hl with
    | @list _ _ _ _ _ _ t u _ hs _ hl =>
      have ⟨rule, hrule⟩ := LoadExpr.exists_rule_of_binder (ih hl)
      refine ⟨_, fun callee => Load.list S t u (rule callee), hs, fun _ _ => ?_⟩
      simp only [LoadExpr.eval, hrule]
  | map _ _ _ ihk ihv =>
    cases hl with
    | @map _ _ _ _ _ _ _ _ t u v kind _ _ hs _ hk hv =>
      have ⟨rk, hk⟩ := LoadExpr.exists_rule_of_binder (ihk hk)
      have ⟨rv, hv⟩ := LoadExpr.exists_rule_of_binder (ihv hv)
      refine ⟨_, fun callee => Load.map S t kind u v (rk callee) (rv callee), hs, fun _ _ => ?_⟩
      simp only [LoadExpr.eval, hk, hv]

theorem FieldExpr.exists_loadRule {f : Field} (h : FieldExpr s name? f arg e) (S : Schema)
    {le : LoadExpr} (hl : LoadLinked L scope e le) :
    ∃ source rule, source.Resolves scope arg ∧ le.Applies S source rule := by
  cases h with
  | inline _ he => exact he.exists_loadRule S hl
  | slot =>
    cases hl with
    | call hs => exact ⟨_, fun callee => callee _, hs, fun _ _ => by rw [LoadExpr.eval]⟩

/-! ## Dumping -/

namespace DumpExpr

abbrev Rule := (Nat → Dump.Rule) → Dump.Rule

def Applies (S : Schema) (e : DumpExpr) (source : DumpSource) (rule : Rule) : Prop :=
  ∀ callee frame, e.eval S callee frame = source.feed S frame (rule callee)

variable {S : Schema} {de : DumpExpr} {x : String}

theorem exists_rule_of_binder
    (h : ∃ source rule, source.Resolves L (x :: scope) (.var x) ∧ de.Applies S source rule) :
    ∃ rule : Rule, ∀ callee v frame, de.eval S callee (v :: frame) = rule callee v := by
  obtain ⟨source, rule, hs, happ⟩ := h
  cases hs with
  | var hx =>
    cases (Scope.idxOf?_innermost x scope).symm.trans hx
    exact ⟨rule, fun callee v frame => happ callee (v :: frame)⟩

end DumpExpr

theorem ExprFor.exists_dumpRule (h : ExprFor s name? t arg e) (S : Schema) {de : DumpExpr}
    (hl : DumpLinked L scope e de) :
    ∃ source rule, source.Resolves L scope arg ∧ de.Applies S source rule := by
  induction h generalizing scope de with
  | hook | leaf =>
    cases hl with
    | scalar hs | tree hs | hook hs => exact ⟨_, fun _ => _, hs, fun _ _ => by rw [DumpExpr.eval]⟩
  | call =>
    cases hl with
    | call hs => exact ⟨_, fun callee => callee _, hs, fun _ _ => by rw [DumpExpr.eval]⟩
  | optional _ _ ih =>
    cases hl with
    | @optional _ _ _ _ _ _ t _ _ hs _ hl =>
      have ⟨rule, hrule⟩ := DumpExpr.exists_rule_of_binder (ih hl)
      refine ⟨_, fun callee => Dump.optional S t (rule callee), hs, fun _ _ => ?_⟩
      simp only [DumpExpr.eval, hrule]
  | boxed _ _ ih =>
    cases hl with
    | @boxed _ _ _ _ _ _ t _ _ hs _ hl =>
      have ⟨rule, hrule⟩ := DumpExpr.exists_rule_of_binder (ih hl)
      refine ⟨_, fun callee => Dump.boxed S t (rule callee), hs, fun _ _ => ?_⟩
      simp only [DumpExpr.eval, hrule]
  | list _ _ ih =>
    cases hl with
    | @list _ _ _ _ _ _ t _ _ hs _ hl =>
      have ⟨rule, hrule⟩ := DumpExpr.exists_rule_of_binder (ih hl)
      refine ⟨_, fun callee => Dump.list S t (rule callee), hs, fun _ _ => ?_⟩
      simp only [DumpExpr.eval, hrule]
  | map _ _ _ ihk ihv =>
    cases hl with
    | @map _ _ _ _ _ _ _ _ t _ _ kind _ _ hs _ hk hv =>
      have ⟨rk, hk⟩ := DumpExpr.exists_rule_of_binder (ihk hk)
      have ⟨rv, hv⟩ := DumpExpr.exists_rule_of_binder (ihv hv)
      refine ⟨_, fun callee => Dump.map S t kind (rk callee) (rv callee), hs, fun _ _ => ?_⟩
      simp only [DumpExpr.eval, hk, hv]

end TreeCodec
