import TreeCodec.Proofs.Compilation

/-!
What the helpers of compiled procedures are bound to.
-/
namespace TreeCodec

theorem mem_toList_helperName (S : Schema) (kind : String) (t : Ty) :
    '_' ∈ (S.helperName kind t).toList := by
  simp [Schema.helperName]

section Names

variable {s : Settings} {name? : GuardKey → Option String}

theorem ExprFor.map_fst_uses {t : Ty} {arg : Operand} {e : Expr} (h : ExprFor s name? t arg e) :
    (e.uses s t).map Prod.fst = e.helpers := by
  induction h with
  | hook | leaf | call => rfl
  | optional _ _ ih | boxed _ _ ih | list _ _ ih =>
    simp [Expr.uses, Expr.helpers, Schema.shape, ih]
  | map _ _ _ ihk ihv => simp [Expr.uses, Expr.helpers, Schema.shape, ihk, ihv]

-- The names of helpers have an underscore, so none of them is `cls`.
theorem ExprFor.underscore {t : Ty} {arg : Operand} {e : Expr} (h : ExprFor s name? t arg e) :
    ∀ name ∈ e.helpers, '_' ∈ name.toList := by
  induction h with
  | hook | leaf => simp [Expr.helpers, Schema.hookName, Schema.leafName]
  | call => simp [Expr.helpers]
  | optional _ _ ih | boxed _ _ ih | list _ _ ih =>
    simpa [Expr.helpers, mem_toList_helperName] using ih
  | map _ _ _ ihk ihv =>
    simp only [Expr.helpers, List.mem_cons, List.mem_append, forall_eq_or_imp]
    exact ⟨mem_toList_helperName .., fun name h => h.elim (ihk name) (ihv name)⟩

theorem Alternatives.map_fst_uses {x : String} {variants : List Variant} {es : List Expr}
    (h : Alternatives s name? x variants es) :
    (Expr.usesAll s es (variants.map Variant.ty)).map Prod.fst = Expr.helpersList es := by
  induction h with
  | nil => rfl
  | cons h _ ih => simp [Expr.usesAll, Expr.helpersList, ih, h.map_fst_uses]

theorem Alternatives.underscore {x : String} {variants : List Variant} {es : List Expr}
    (h : Alternatives s name? x variants es) :
    ∀ name ∈ Expr.helpersList es, '_' ∈ name.toList := by
  induction h with
  | nil => simp [Expr.helpersList]
  | cons h _ ih =>
    intro name hn
    exact (List.mem_append.mp hn).elim (h.underscore name) (ih name)

theorem FieldExpr.map_fst_uses {f : Field} {arg : Operand} {e : Expr}
    (h : FieldExpr s name? f arg e) : (e.uses s f.ty).map Prod.fst = e.helpers := by
  cases h with
  | slot => rfl
  | inline _ he => exact he.map_fst_uses

theorem FieldExpr.underscore {f : Field} {arg : Operand} {e : Expr}
    (h : FieldExpr s name? f arg e) : ∀ name ∈ e.helpers, '_' ∈ name.toList := by
  cases h with
  | slot => simp [Expr.helpers]
  | inline _ he => exact he.underscore

theorem map_fst_defaultUses (f : Field) :
    (defaultUses f (f.default.map fun _ => f.defaultName)).map Prod.fst =
      (f.default.map fun _ => f.defaultName).toList := by
  cases hd : f.default <;> simp [defaultUses, hd]

theorem Assigns.map_fst_uses {source : Nat → Field → Operand} {i : Nat} {fs : List Field}
    {stmts : List Stmt} (h : Assigns s name? source i fs stmts) (t : Ty) (rest : List Stmt) :
    (Stmt.usesAll s t fs (stmts ++ rest)).map Prod.fst =
      stmts.flatMap Stmt.helpers ++ (Stmt.usesAll s t [] rest).map Prod.fst := by
  induction h with
  | nil => rfl
  | cons he _ ih =>
    simp [Stmt.usesAll, Stmt.helpers, ih, he.map_fst_uses, map_fst_defaultUses]

theorem Assigns.underscore {source : Nat → Field → Operand} {i : Nat} {fs : List Field}
    {stmts : List Stmt} (h : Assigns s name? source i fs stmts) :
    ∀ name ∈ stmts.flatMap Stmt.helpers, '_' ∈ name.toList := by
  induction h with
  | nil => simp
  | @cons i f fs e stmts he _ ih =>
    intro name hn
    simp only [List.flatMap_cons, Stmt.helpers, List.mem_append] at hn
    rcases hn with (hn | hn) | hn
    · exact he.underscore name hn
    · cases hd : f.default <;> simp [hd] at hn
      simp [hn, Field.defaultName]
    · exact ih name hn

-- What is put for a field has the helpers of its expression.
def Puts (s : Settings) (put : Field → Expr → Stmt) : Prop :=
  ∀ f e, (put f e).helpers = e.helpers ∧ ∀ t fs rest,
    Stmt.usesAll s t (f :: fs) (put f e :: rest) = e.uses s f.ty ++ Stmt.usesAll s t fs rest

theorem puts_insert : Puts s fun f e => .insert f.key e s.options.omitNull :=
  fun _ _ => ⟨rfl, fun _ _ _ => by simp [Stmt.usesAll]⟩

theorem puts_push : Puts s fun _ e => .push e :=
  fun _ _ => ⟨rfl, fun _ _ _ => by simp [Stmt.usesAll]⟩

theorem Outputs.map_fst_uses {source : Nat → Field → Operand} {put : Field → Expr → Stmt} {i : Nat}
    {fs : List Field} {stmts : List Stmt} (hput : Puts s put)
    (h : Outputs s name? source put i fs stmts) (t : Ty) (rest : List Stmt) :
    (Stmt.usesAll s t fs (stmts ++ rest)).map Prod.fst =
      stmts.flatMap Stmt.helpers ++ (Stmt.usesAll s t [] rest).map Prod.fst := by
  induction h with
  | nil => rfl
  | cons he _ ih => simp [(hput _ _).left, (hput _ _).right, ih, he.map_fst_uses]

theorem Outputs.underscore {source : Nat → Field → Operand} {put : Field → Expr → Stmt} {i : Nat}
    {fs : List Field} {stmts : List Stmt} (hput : Puts s put)
    (h : Outputs s name? source put i fs stmts) :
    ∀ name ∈ stmts.flatMap Stmt.helpers, '_' ∈ name.toList := by
  induction h with
  | nil => simp
  | cons he _ ih =>
    intro name hn
    simp only [List.flatMap_cons, (hput _ _).left, List.mem_append] at hn
    exact hn.elim (he.underscore name) (ih name)

-- What is listed for a body are the helpers that stand in it, in order.
theorem BodyFor.map_fst_uses {key : GuardKey} {body : List Stmt} (h : BodyFor s name? key body) :
    (bodyUses s key.subject body).map Prod.fst = body.flatMap Stmt.helpers := by
  cases h with
  | loadMapping _ _ hs ha =>
    have := ha.map_fst_uses
    unfold keyChecks
    split <;> simp_all [bodyUses, GuardKey.subject, Schema.parts, Stmt.usesAll, Stmt.helpers]
  | loadSequence _ _ hs ha | loadTuple _ _ hs ha =>
    simp [bodyUses, GuardKey.subject, Schema.parts, hs, Stmt.usesAll, Stmt.helpers, ha.map_fst_uses]
  | dumpMapping _ _ hs ho =>
    simp [bodyUses, GuardKey.subject, Schema.parts, hs, Stmt.usesAll, Stmt.helpers,
      ho.map_fst_uses puts_insert]
  | dumpSequence _ _ hs ho | dumpTuple _ _ hs ho =>
    simp [bodyUses, GuardKey.subject, Schema.parts, hs, Stmt.usesAll, Stmt.helpers,
      ho.map_fst_uses puts_push]
  | union _ hs ha =>
    simp [bodyUses, GuardKey.subject, Schema.parts, hs, Stmt.usesAll, Stmt.helpers, Expr.uses,
      Expr.helpers, ha.map_fst_uses]
  | value _ he | slot he =>
    simp [bodyUses, GuardKey.subject, Stmt.usesAll, Stmt.helpers, he.map_fst_uses]

theorem BodyFor.underscore {key : GuardKey} {body : List Stmt} (h : BodyFor s name? key body) :
    ∀ name ∈ body.flatMap Stmt.helpers, '_' ∈ name.toList := by
  cases h with
  | loadMapping _ _ _ ha =>
    have := ha.underscore
    unfold keyChecks
    split <;> simpa [Stmt.helpers] using this
  | loadSequence _ _ _ ha | loadTuple _ _ _ ha => simpa [Stmt.helpers] using ha.underscore
  | dumpMapping _ _ _ ho => simpa [Stmt.helpers] using ho.underscore puts_insert
  | dumpSequence _ _ _ ho | dumpTuple _ _ _ ho =>
    simpa [Stmt.helpers] using ho.underscore puts_push
  | union _ _ ha =>
    simpa [Stmt.helpers, Expr.helpers, mem_toList_helperName] using ha.underscore
  | value _ he | slot he => simpa [Stmt.helpers] using he.underscore

end Names

namespace Locals

variable {bound : List (String × Binding)} {name : String} {b : Binding}

theorem get?_bindAll_of_not_mem (locals : Locals) (h : name ∉ bound.map Prod.fst) :
    Keyed.get? name (bindAll locals bound) = Keyed.get? name locals := by
  unfold bindAll
  induction bound generalizing locals with
  | nil => rfl
  | cons e rest ih =>
    simp only [List.map_cons, List.mem_cons, not_or] at h
    rw [List.foldl_cons, ih _ h.right, Keyed.get?_put, if_neg h.left]

-- The last of several things that are bound to a name stays.
theorem exists_get?_bindAll (locals : Locals) (h : (name, b) ∈ bound) :
    ∃ b', (name, b') ∈ bound ∧ Keyed.get? name (bindAll locals bound) = some b' := by
  induction bound generalizing locals b with
  | nil => nomatch h
  | cons e rest ih =>
    by_cases hr : name ∈ rest.map Prod.fst
    case pos =>
      obtain ⟨⟨_, b'⟩, hm, rfl⟩ := List.mem_map.mp hr
      have ⟨b'', hm, hg⟩ := ih (Keyed.put e.1 e.2 locals) hm
      exact ⟨b'', List.mem_cons_of_mem _ hm, hg⟩
    case neg =>
      rcases List.mem_cons.mp h with rfl | h
      case inl =>
        refine ⟨b, List.mem_cons_self .., ?_⟩
        exact (get?_bindAll_of_not_mem _ hr).trans <| by rw [Keyed.get?_put, if_pos rfl]
      case inr => exact absurd (List.mem_map.mpr ⟨_, h, rfl⟩) hr

-- What a name is bound to was bound to it, early or late.
theorem mem_of_get?_bindAll {locals : Locals} (h : Keyed.get? name (bindAll locals bound) = some b) :
    (name, b) ∈ bound ∨ Keyed.get? name locals = some b := by
  by_cases hn : name ∈ bound.map Prod.fst
  case pos =>
    obtain ⟨⟨_, b'⟩, hm, rfl⟩ := List.mem_map.mp hn
    have ⟨b'', hm, hget⟩ := exists_get?_bindAll locals hm
    cases h.symm.trans hget
    exact .inl hm
  case neg => exact .inr <| (get?_bindAll_of_not_mem locals hn).symm.trans h

end Locals

namespace ProcedureFor

variable {s : Settings} {name? : GuardKey → Option String} {key : GuardKey} {p : Procedure}

-- The type that a procedure is about is bound to `cls`.
theorem cls (h : ProcedureFor s name? key p) :
    p.binding? "cls" = some (.type key.subject) := by
  have hn : "cls" ∉ (bodyUses s key.subject p.body).map Prod.fst := by
    rw [h.body.map_fst_uses]
    intro hm
    exact absurd (h.body.underscore _ hm) (by decide)
  unfold Procedure.binding?
  rw [h.locals, Locals.get?_bindAll_of_not_mem _ hn]
  rfl

theorem uses_eq (h : ProcedureFor s name? key p) : p.uses s = bodyUses s key.subject p.body := by
  have := h.cls
  unfold Procedure.binding? at this
  simp only [Procedure.uses, Meaning.typeOf?, this]

theorem helpersBound_iff (h : ProcedureFor s name? key p) :
    p.HelpersBound s ↔ p.HelpersDistinct s := by
  constructor
  case mp =>
    intro hb name b b' hm hm'
    exact Option.some.inj <| (hb name b hm).symm.trans (hb name b' hm')
  case mpr =>
    intro hd name b hm
    have hm' := hm
    rw [h.uses_eq] at hm'
    have ⟨b', hmem, hget⟩ := Locals.exists_get?_bindAll [("cls", .type key.subject)] hm'
    rw [← h.locals] at hget
    rw [← h.uses_eq] at hmem
    exact hget.trans <| congrArg some <| hd name b' b hmem hm

theorem map_fst_uses (h : ProcedureFor s name? key p) : (p.uses s).map Prod.fst = p.helpers := by
  rw [h.uses_eq, h.body.map_fst_uses, Procedure.helpers]

end ProcedureFor

-- A helper that stands in a procedure once is applied to one thing.
theorem Procedure.helpersDistinct_of_nodup {s : Settings} {p : Procedure}
    (h : ((p.uses s).map Prod.fst).Nodup) : p.HelpersDistinct s := by
  intro name b b' hb hb'
  have := List.inj_on_of_nodup_map h hb hb' rfl
  exact congrArg Prod.snd this

-- No procedure that is compiled for a type applies one helper name to two things.
def Settings.HelpersDistinct (s : Settings) (root : Ty) : Prop :=
  ∀ source, (compileProcedures s.schema s.options s.hooks s.direction root).result = .ok source →
    ∀ p ∈ source.builder.sealed, p.HelpersDistinct s

theorem Settings.helpersDistinct_of_nodup {s : Settings} {root : Ty}
    (h : ((compileProcedures s.schema s.options s.hooks s.direction root).result.map fun source =>
      source.builder.sealed.all fun p => ((p.uses s).map Prod.fst).Nodup).toOption = some true) :
    s.HelpersDistinct root := by
  intro source hs p hp
  rw [hs] at h
  exact p.helpersDistinct_of_nodup <|
    of_decide_eq_true <| List.all_eq_true.mp (Option.some.inj h) p hp

-- Whether a helper is bound to a type other than the one that it is applied to.
def Procedure.mistakesType (s : Settings) (p : Procedure) : Bool :=
  (p.uses s).any fun (name, b) =>
    match b, p.binding? name with
    | .type t, some (.type u) => t ≠ u
    | _, _ => false

theorem Procedure.not_helpersBound {s : Settings} {p : Procedure} (h : p.mistakesType s = true) :
    ¬ p.HelpersBound s := by
  intro hb
  have ⟨⟨name, b⟩, hm, hne⟩ := List.any_eq_true.mp h
  have hn := hb name b hm
  cases b <;> simp [hn] at hne

-- Two records of one name from different modules, and one that holds both.
def homonyms : Schema where
  declarations := [
    ("Item", {
      names := .qualified "app::a" "Item"
      definition := .record [{ name := "a", key := "a", ty := .scalar (.int .i32) }] false }),
    ("ItemB", {
      names := .qualified "app::b" "Item"
      definition := .record [{ name := "b", key := "b", ty := .scalar .string }] false }),
    ("A", {
      names := .qualified "app" "A"
      definition := .record [
        { name := "x", key := "x", ty := .optional (.declared "Item") },
        { name := "y", key := "y", ty := .optional (.declared "ItemB") }] false })]

-- Every helper that stands in a procedure is bound to what it is applied to, exactly if no helper of
-- the procedure is applied to two different things.
theorem helpers_bound_iff_distinct {S : Schema} {options : Options} {hooks : Hooks} {d : Direction}
    {root : Ty} {source : Source}
    (h : (compileProcedures S options hooks d root).result = .ok source) :
    ∀ p ∈ source.builder.sealed, (p.uses ⟨S, d, hooks, options⟩).map Prod.fst = p.helpers ∧
      (p.HelpersBound ⟨S, d, hooks, options⟩ ↔ p.HelpersDistinct ⟨S, d, hooks, options⟩) := by
  intro p hp
  have ⟨_, hc⟩ := compileProcedures_compilation h
  have ⟨_, _, hfor⟩ := hc.made p hp
  exact ⟨hfor.map_fst_uses, hfor.helpersBound_iff⟩

theorem homonyms_compile :
    ∃ source, (compileProcedures homonyms {} {} .load (.declared "A")).result = .ok source :=
  Compiled.exists_ok (by decide +kernel)

theorem helpers_bound_iff_distinct_homonyms :
    ∃ source, (compileProcedures homonyms {} {} .load (.declared "A")).result = .ok source ∧
      ∀ p ∈ source.builder.sealed,
        (p.uses ⟨homonyms, .load, {}, {}⟩).map Prod.fst = p.helpers ∧
          (p.HelpersBound ⟨homonyms, .load, {}, {}⟩ ↔ p.HelpersDistinct ⟨homonyms, .load, {}, {}⟩) :=
  have ⟨source, h⟩ := homonyms_compile
  ⟨source, h, helpers_bound_iff_distinct h⟩

-- The options of the two records share one helper.
theorem helpers_not_bound_homonyms :
    ∃ source, (compileProcedures homonyms {} {} .load (.declared "A")).result = .ok source ∧
      ∃ p ∈ source.builder.sealed, ¬ p.HelpersBound ⟨homonyms, .load, {}, {}⟩ := by
  have ⟨source, h⟩ := homonyms_compile
  have hc : ((compileProcedures homonyms {} {} .load (.declared "A")).result.map fun source =>
      source.builder.sealed.any (·.mistakesType ⟨homonyms, .load, {}, {}⟩)).toOption =
      some true := by
    decide +kernel
  rw [h] at hc
  have ⟨p, hp, hm⟩ := List.any_eq_true.mp <| Option.some.inj hc
  exact ⟨source, h, p, hp, p.not_helpersBound hm⟩

end TreeCodec
