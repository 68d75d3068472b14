import TreeCodec.Proofs.HelperNames
import TreeCodec.Proofs.Walk

/-!
What stands in the body of a target: the expressions for its places, and the uses of helpers in them.
-/
namespace TreeCodec

section Uses

variable {s : Settings}

-- A statement without an expression has no helpers.
theorem Stmt.usesAll_cons {stmt : Stmt} (h : stmt.exprs = []) (t : Ty) (fs : List Field)
    (rest : List Stmt) : Stmt.usesAll s t fs (stmt :: rest) = Stmt.usesAll s t fs rest := by
  cases fs <;> cases stmt <;> simp_all [Stmt.usesAll, Stmt.exprs]

theorem Stmt.usesAll_keyChecks (fields : List Field) (t : Ty) (fs : List Field)
    (rest : List Stmt) :
    Stmt.usesAll s t fs (keyChecks s fields ++ rest) = Stmt.usesAll s t fs rest := by
  unfold keyChecks
  split
  · exact Stmt.usesAll_cons rfl ..
  · rfl

end Uses

section Parts

variable (s : Settings) (name? : GuardKey → Option String) (key : GuardKey)

-- An expression that stands in the body of a target, with the uses of helpers in it.
inductive BodyExpr : Expr → List (String × Binding) → Prop
  | value {t : Ty} {arg : Operand} {e : Expr} :
    .value t ∈ key.places s → ExprFor s name? t arg e → BodyExpr e (e.uses s t)
  | slot {p : String} {arg : Operand} : BodyExpr (.call p arg) []
  | union {t : Ty} {variants : List Variant} {x : String} {es : List Expr} :
    key = .origin t → s.hook? t = none → s.schema.shape t = .union variants →
    Alternatives s name? x variants es →
    BodyExpr (.union (s.schema.helperName "union" t) (.var s.direction.param) x es)
      ((s.schema.helperName "union" t, .type t) :: Expr.usesAll s es (variants.map Variant.ty))

-- Statements for places of a target: what stands in them, and all helpers that are used in them.
structure BodyParts (stmts : List Stmt) (uses : List (String × Binding)) : Prop where
  exprs : ∀ stmt ∈ stmts, ∀ e ∈ stmt.exprs, ∃ us, BodyExpr s name? key e us ∧ us ⊆ uses
  uses  : ∀ use ∈ uses, (∃ e us, BodyExpr s name? key e us ∧ use ∈ us) ∨
    ∃ f : Field, ∃ v, use = (f.defaultName, .default v)

variable {s name? key} {stmts : List Stmt} {uses : List (String × Binding)}

namespace BodyParts

-- Statements without an expression do not count.
theorem cons (h : BodyParts s name? key stmts uses) {stmt : Stmt} (hs : stmt.exprs = []) :
    BodyParts s name? key (stmt :: stmts) uses where
  exprs := List.forall_mem_cons.mpr ⟨by simp [hs], h.exprs⟩
  uses  := h.uses

theorem of_expr {stmt : Stmt} {e : Expr} (hs : stmt.exprs = [e]) (h : BodyExpr s name? key e uses) :
    BodyParts s name? key [stmt] uses where
  exprs := by simpa [hs] using ⟨uses, h, List.Subset.refl _⟩
  uses  := fun use hu => .inl ⟨e, uses, h, hu⟩

theorem append {stmts' : List Stmt} {uses' : List (String × Binding)}
    (h : BodyParts s name? key stmts uses) (h' : BodyParts s name? key stmts' uses') :
    BodyParts s name? key (stmts ++ stmts') (uses ++ uses') where
  exprs := by
    refine List.forall_mem_append.mpr ⟨fun stmt hs e he => ?_, fun stmt hs e he => ?_⟩
    · have ⟨us, hus, hsub⟩ := h.exprs stmt hs e he
      exact ⟨us, hus, List.subset_append_of_subset_left _ hsub⟩
    · have ⟨us, hus, hsub⟩ := h'.exprs stmt hs e he
      exact ⟨us, hus, List.subset_append_of_subset_right _ hsub⟩
  uses := List.forall_mem_append.mpr ⟨h.uses, h'.uses⟩

end BodyParts

theorem FieldExpr.bodyExpr {f : Field} {arg : Operand} {e : Expr}
    (h : FieldExpr s name? f arg e) (hf : .ofField f ∈ key.places s) :
    BodyExpr s name? key e (e.uses s f.ty) := by
  cases h with
  | slot => exact .slot
  | inline hp he =>
    refine .value ?_ he
    simpa [Place.ofField, hp] using hf

theorem bodyParts_assign {f : Field} {i : Nat} {arg : Operand} {e : Expr}
    (h : FieldExpr s name? f arg e) (hf : .ofField f ∈ key.places s) (name : Option String)
    (hn : name = f.default.map fun _ => f.defaultName) :
    BodyParts s name? key [.assign i arg e name] (e.uses s f.ty ++ defaultUses f name) where
  exprs := by
    simp only [List.forall_mem_singleton, Stmt.exprs]
    exact ⟨_, h.bodyExpr hf, List.subset_append_left ..⟩
  uses := by
    refine List.forall_mem_append.mpr ⟨fun use hu => .inl ⟨_, _, h.bodyExpr hf, hu⟩, fun use hu => ?_⟩
    subst hn
    cases hd : f.default with
    | none => simp [defaultUses, hd] at hu
    | some v =>
      simp only [defaultUses, hd, Option.map_some, List.mem_singleton] at hu
      exact .inr ⟨f, v, hu⟩

theorem Assigns.parts {source : Nat → Field → Operand} {i : Nat} {fs : List Field}
    {rest : List Stmt} {t : Ty} (h : Assigns s name? source i fs stmts)
    (hf : ∀ f ∈ fs, .ofField f ∈ key.places s)
    (hr : BodyParts s name? key rest (Stmt.usesAll s t [] rest)) :
    BodyParts s name? key (stmts ++ rest) (Stmt.usesAll s t fs (stmts ++ rest)) := by
  induction h with
  | nil => exact hr
  | cons he _ ih =>
    have ⟨hfield, hf⟩ := List.forall_mem_cons.mp hf
    exact (bodyParts_assign he hfield _ rfl).append (ih hf)

theorem Outputs.parts {source : Nat → Field → Operand} {put : Field → Expr → Stmt} {i : Nat}
    {fs : List Field} {rest : List Stmt} {t : Ty} (hput : Puts s put)
    (hexprs : ∀ f e, (put f e).exprs = [e]) (h : Outputs s name? source put i fs stmts)
    (hf : ∀ f ∈ fs, .ofField f ∈ key.places s)
    (hr : BodyParts s name? key rest (Stmt.usesAll s t [] rest)) :
    BodyParts s name? key (stmts ++ rest) (Stmt.usesAll s t fs (stmts ++ rest)) := by
  induction h with
  | nil => exact hr
  | @cons i f fs e stmts he _ ih =>
    have ⟨hfield, hf⟩ := List.forall_mem_cons.mp hf
    rw [List.cons_append, (hput f e).right]
    exact (BodyParts.of_expr (hexprs f e) (he.bodyExpr hfield)).append (ih hf)

theorem bodyParts_last {stmt : Stmt} (h : stmt = .construct "cls" ∨ stmt = .returnOutput) (t : Ty) :
    BodyParts s name? key [stmt] (Stmt.usesAll s t [] [stmt]) := by
  rcases h with rfl | rfl
  · exact ⟨by simp [Stmt.exprs], by simp [Stmt.usesAll]⟩
  · exact ⟨by simp [Stmt.exprs], by simp [Stmt.usesAll]⟩

theorem mem_places_of_record {t : Ty} {fields : List Field} {positional : Bool}
    (hh : s.hook? t = none) (hs : s.schema.shape t = .record fields positional) :
    ∀ f ∈ fields, .ofField f ∈ (GuardKey.origin t).places s := by
  rw [GuardKey.places_record hh hs]
  exact fun f hf => List.mem_map_of_mem hf

theorem mem_places_of_tuple {t : Ty} {ts : List Ty} (hh : s.hook? t = none)
    (hs : s.schema.shape t = .tuple ts) :
    ∀ f ∈ ts.map Field.ofElement, .ofField f ∈ (GuardKey.origin t).places s := by
  rw [GuardKey.places_tuple hh hs]
  exact List.forall_mem_map.mpr fun u hu => List.mem_map_of_mem hu

theorem BodyFor.parts {body : List Stmt} (h : BodyFor s name? key body) :
    BodyParts s name? key body (bodyUses s key.subject body) := by
  cases h with
  | @loadMapping t fields stmts _ hh hs ha =>
    simp only [bodyUses, GuardKey.subject, Schema.parts, hs]
    rw [Stmt.usesAll_cons rfl, Stmt.usesAll_keyChecks]
    have hrest := ha.parts (t := t) (mem_places_of_record hh hs) (bodyParts_last (.inl rfl) t)
    refine .cons ?_ rfl
    unfold keyChecks
    split
    · exact hrest.cons rfl
    · exact hrest
  | loadSequence _ hh hs ha =>
    simp only [bodyUses, GuardKey.subject, Schema.parts, hs]
    rw [Stmt.usesAll_cons rfl]
    exact (ha.parts (mem_places_of_record hh hs) (bodyParts_last (.inl rfl) _)).cons rfl
  | loadTuple _ hh hs ha =>
    simp only [bodyUses, GuardKey.subject, Schema.parts, hs]
    rw [Stmt.usesAll_cons rfl]
    exact (ha.parts (mem_places_of_tuple hh hs) (bodyParts_last (.inl rfl) _)).cons rfl
  | dumpMapping _ hh hs ho =>
    simp only [bodyUses, GuardKey.subject, Schema.parts, hs]
    rw [Stmt.usesAll_cons rfl]
    refine (ho.parts puts_insert (fun _ _ => rfl) (mem_places_of_record hh hs) ?_).cons rfl
    exact bodyParts_last (.inr rfl) _
  | dumpSequence _ hh hs ho =>
    simp only [bodyUses, GuardKey.subject, Schema.parts, hs]
    rw [Stmt.usesAll_cons rfl]
    refine (ho.parts puts_push (fun _ _ => rfl) (mem_places_of_record hh hs) ?_).cons rfl
    exact bodyParts_last (.inr rfl) _
  | dumpTuple _ hh hs ho =>
    simp only [bodyUses, GuardKey.subject, Schema.parts, hs]
    rw [Stmt.usesAll_cons rfl]
    refine (ho.parts puts_push (fun _ _ => rfl) (mem_places_of_tuple hh hs) ?_).cons rfl
    exact bodyParts_last (.inr rfl) _
  | union hh hs ha =>
    simp only [bodyUses, GuardKey.subject, Schema.parts, hs, Stmt.usesAll, Expr.uses,
      List.append_nil]
    exact .of_expr rfl <| .union rfl hh hs ha
  | value hn he =>
    simp only [bodyUses, GuardKey.subject, Stmt.usesAll, List.append_nil]
    refine .of_expr rfl <| .value ?_ he
    rw [GuardKey.places_value hn]
    exact List.mem_singleton_self _
  | slot he =>
    simp only [bodyUses, GuardKey.subject, Stmt.usesAll, List.append_nil]
    exact .of_expr rfl <| .value (List.mem_singleton_self _) he

end Parts
end TreeCodec
