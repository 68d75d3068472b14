import TreeCodec.Proofs.FreshName
import TreeCodec.Proofs.Shape

/-!
What the compilers leave behind: expressions and bodies of the right form, and the procedures of all
targets that they call.
-/
namespace TreeCodec

open CompileM

-- The types that the structure of a type shows.
def Schema.within (S : Schema) (t : Ty) : List Ty :=
  match S.shape t with
  | .record fields _ => fields.map Field.ty
  | .union variants => variants.map Variant.ty
  | .tuple ts => ts
  | .list u | .optional u | .boxed u => [u]
  | .map _ u v => [u, v]
  | .scalar _ | .dynamic | .foreign => []

-- The types that a compilation may meet, and the keys of the targets for them.
structure Coverage (s : Settings) (met : Ty → Prop) (keys : List GuardKey) : Prop where
  closed    : ∀ t u, met t → s.hook? t = none → u ∈ s.schema.within t → met u
  origin    : ∀ t, met t → .origin t ∈ keys
  arguments : ∀ t, met t → .arguments [t] ∈ keys

-- The only reason to fail: a foreign type without a hook.
def Refused (s : Settings) (met : Ty → Prop) (e : CodegenError) : Prop :=
  ∃ t, met t ∧ s.hook? t = none ∧ s.schema.shape t = .foreign ∧
    e = .unsupported (s.schema.path t) s.direction

section Primitive

variable {s : Settings} {c : Context} {keys : List GuardKey} {n : Nat}
  {fail : CodegenError → Prop}

theorem emit_sat (hc : c.builder.pending ≠ []) (stmt : Stmt) :
    Sat (emit stmt) s c (fun _ c' => c' = c.extend [stmt] []) fail := by
  obtain ⟨⟨_, _, _, pending⟩, _⟩ := c
  cases pending with
  | nil => exact absurd rfl hc
  | cons => exact rfl

theorem bind_sat (hc : c.builder.pending ≠ []) (name : String) (b : Binding) :
    Sat (CompileM.bind name b) s c (fun _ c' => c' = c.extend [] [(name, b)]) fail := by
  obtain ⟨⟨_, _, _, pending⟩, _⟩ := c
  cases pending with
  | nil => exact absurd rfl hc
  | cons p =>
    refine (?_ : _ = _)
    simp [Context.extend, Procedure.extend, Locals.bindAll]

theorem freshBinder_sat :
    Sat freshBinder s c (fun _ c' => Extends s c [] [] c') fail := by
  exact .bind <| .modify <| .bind <| .direction <| .bind <| .get <| .of_same rfl rfl

theorem lookup_sat (key : GuardKey) :
    Sat (lookup key) s c (fun found c' => found = c.guard.lookup key ∧ c'.guard = c.guard ∧
      c'.builder = c.builder) fail :=
  .bind <| ⟨rfl, rfl, rfl⟩

theorem hook_sat {t : Ty} {post : Option Binding → Context → Prop} (h : post (s.hook? t) c) :
    Sat (hook? t) s c post fail := by
  refine .bind <| .read ?_
  unfold Settings.hook? at h
  cases hd : s.direction <;> rw [hd] at h <;> exact h

end Primitive

-- An expression for a type was compiled, and its helpers were bound.
structure Converts (s : Settings) (c : Context) (t : Ty) (arg : Operand) (e : Expr) (c' : Context) :
    Prop where
  form  : ExprFor s c'.guard.lookup t arg e
  bound : Extends s c [] (e.uses s t) c'

-- A call of the procedure of a target was compiled.
structure Calls (s : Settings) (c : Context) (key : GuardKey) (arg : Operand) (e : Expr)
    (c' : Context) : Prop where
  call  : ∃ name, e = .call name arg ∧ c'.guard.lookup key = some name
  bound : Extends s c [] [] c'

-- Targets are called as they should be where at most `n` of them are not reserved.
structure Targets.Sound (targets : Targets) (s : Settings) (met : Ty → Prop)
    (keys : List GuardKey) (n : Nat) : Prop where
  record : ∀ d c, Ready keys n c → met d.ty → s.hook? d.ty = none → s.schema.kind d.ty = .record →
    Sat (targets.record d) s c (Calls s c (.origin d.ty) d.value) (Refused s met)
  union  : ∀ d c, Ready keys n c → met d.ty → s.hook? d.ty = none → s.schema.kind d.ty = .union →
    Sat (targets.union d) s c (Calls s c (.origin d.ty) d.value) (Refused s met)
  tuple  : ∀ d c, Ready keys n c → met d.ty → s.hook? d.ty = none → s.schema.kind d.ty = .tuple →
    Sat (targets.tuple d) s c (Calls s c (.origin d.ty) d.value) (Refused s met)
  slot   : ∀ d d' c, Ready keys n c → d.given = some [d'] → met d'.ty →
    Sat (targets.slot d) s c (Calls s c (.arguments [d'.ty]) d.value) (Refused s met)

theorem Calls.converts {s : Settings} {c c' : Context} {t : Ty} {arg : Operand} {e : Expr}
    (h : Calls s c (.origin t) arg e c') (hh : s.hook? t = none)
    (hp : s.schema.HasProcedure t) : Converts s c t arg e c' := by
  obtain ⟨⟨name, rfl, hn⟩, hb⟩ := h
  exact ⟨.call hh hp hn, hb⟩

section Typed

open Compile

variable {s : Settings} {met : Ty → Prop} {keys : List GuardKey} {n : Nat} {c : Context}
  {targets : Targets}

theorem hooked_sat (hc : c.builder.pending ≠ []) (t : Ty) (arg : Operand)
    {fail : CodegenError → Prop} :
    Sat (hooked t arg) s c (fun found c' =>
      (∃ e, found = some e ∧ Converts s c t arg e c') ∨
        (found = none ∧ s.hook? t = none ∧ c' = c)) fail := by
  refine .bind <| hook_sat ?_
  cases hh : s.hook? t with
  | none => exact .pure <| .inr ⟨rfl, rfl, rfl⟩
  | some b =>
    refine .bind <| .schema <| .seq (bind_sat hc _ b) ?_
    rintro _ _ rfl
    refine .pure <| .inl ⟨_, rfl, .hook hh, ?_⟩
    simpa [Expr.uses, hh] using c.extends_extend s [] _

theorem leaf_sat (hc : c.builder.pending ≠ []) {t : Ty} (arg : Operand) (hh : s.hook? t = none)
    (hl : s.schema.IsLeaf t) {fail : CodegenError → Prop} :
    Sat (leaf t arg) s c (Converts s c t arg) fail := by
  refine .bind <| .schema <| .seq (bind_sat hc _ _) ?_
  rintro _ _ rfl
  refine .pure ⟨.leaf hh hl, ?_⟩
  simpa [Expr.uses, hh] using c.extends_extend s [] _

theorem bindHelper_sat (hc : c.builder.pending ≠ []) (kind : String) (t : Ty)
    {fail : CodegenError → Prop} :
    Sat (bindHelper kind t) s c (fun helper c' => helper = s.schema.helperName kind t ∧
      Extends s c [] [(helper, .type t)] c') fail := by
  refine .bind <| .schema <| .seq (bind_sat hc _ _) ?_
  rintro _ _ rfl
  exact .pure ⟨rfl, c.extends_extend s [] _⟩

theorem inner_sat (t : Ty) (parent : Descriptor) {fail : CodegenError → Prop} :
    Sat (inner t parent) s c (fun (x, d) c' => d.ty = t ∧ d.value = .var x ∧ Extends s c [] [] c')
      fail :=
  .bind <| .schema <| .seq freshBinder_sat fun _ _ h => .pure ⟨rfl, rfl, h⟩

-- A hook comes first; without one the expression is the one of the kind.
theorem hooked_or {t : Ty} {arg : Operand} {rest : CompileM Expr} (hc : Open keys n c)
    (h : s.hook? t = none → Sat rest s c (Converts s c t arg) (Refused s met)) :
    Sat (do if let some e ← hooked t arg then return e else rest) s c (Converts s c t arg)
      (Refused s met) := by
  refine .seq (hooked_sat hc.opened t arg) ?_
  rintro _ c' (⟨e, rfl, he⟩ | ⟨rfl, hh, rfl⟩)
  · exact .pure he
  · exact h hh

-- A value in another one is compiled after the helper of the outer one was bound.
theorem nested_sat {t u : Ty} {d : Descriptor} {kind : String} {rest : Descriptor → CompileM Expr}
    {wrap : String → String → Expr → Expr} {arg : Operand} (hc : Open keys n c)
    (hrest : ∀ d c, Open keys n c → d.ty = u →
      Sat (rest d) s c (Converts s c u d.value) (Refused s met))
    (hform : ∀ name? x e, ExprFor s name? u (.var x) e →
      ExprFor s name? t arg (wrap (s.schema.helperName kind t) x e))
    (huses : ∀ x e, (wrap (s.schema.helperName kind t) x e).uses s t =
      (s.schema.helperName kind t, .type t) :: e.uses s u) :
    Sat (do
      let helper ← bindHelper kind t
      let (binder, e) ← inner u d
      return wrap helper binder (← rest e)) s c (Converts s c t arg) (Refused s met) := by
  refine .seq (bindHelper_sat hc.opened kind t) ?_
  rintro helper c₁ ⟨rfl, h₁⟩
  refine .seq (inner_sat u d) ?_
  rintro ⟨x, d⟩ c₂ ⟨ht, hv, h₂⟩
  have hc₂ := (hc.extends h₁).extends h₂
  refine .seq (hrest d c₂ hc₂ ht) fun e c₃ ⟨he, h₃⟩ => .pure ⟨hform _ _ _ (hv ▸ he), ?_⟩
  rw [huses]
  exact (h₁.trans h₂).trans h₃

theorem typed_sat (hm : Coverage s met keys) (ht : targets.Sound s met keys n) :
    ∀ (t : Ty) (d : Descriptor) (c : Context), Open keys n c → d.ty = t → met t →
      Sat (typed targets t d) s c (Converts s c t d.value) (Refused s met)
  | .scalar k, d, c, hc, _, _ => by
    unfold typed
    exact hooked_or hc fun hh => leaf_sat hc.opened d.value hh (.inl ⟨k, rfl⟩)
  | .dynamic, d, c, hc, _, _ => by
    unfold typed
    exact hooked_or hc fun hh => leaf_sat hc.opened d.value hh (.inr rfl)
  | .optional u, d, c, hc, _, hmt => by
    unfold typed
    refine hooked_or hc fun hh => nested_sat hc (fun d c hc hd => ?_) (fun _ _ _ => .optional hh)
      fun _ _ => rfl
    exact typed_sat hm ht u d c hc hd (hm.closed _ u hmt hh (by simp [Schema.within, Schema.shape]))
  | .boxed u, d, c, hc, _, hmt => by
    unfold typed
    refine hooked_or hc fun hh => nested_sat hc (fun d c hc hd => ?_) (fun _ _ _ => .boxed hh)
      fun _ _ => rfl
    exact typed_sat hm ht u d c hc hd (hm.closed _ u hmt hh (by simp [Schema.within, Schema.shape]))
  | .list k u, d, c, hc, _, hmt => by
    unfold typed
    refine hooked_or hc fun hh => nested_sat hc (fun d c hc hd => ?_) (fun _ _ _ => .list hh)
      fun _ _ => rfl
    exact typed_sat hm ht u d c hc hd (hm.closed _ u hmt hh (by simp [Schema.within, Schema.shape]))
  | .map k u v, d, c, hc, _, hmt => by
    unfold typed
    refine hooked_or hc fun hh => ?_
    have hu : met u := hm.closed _ u hmt hh (by simp [Schema.within, Schema.shape])
    have hv : met v := hm.closed _ v hmt hh (by simp [Schema.within, Schema.shape])
    refine .seq (bindHelper_sat hc.opened "map" _) ?_
    rintro helper c₁ ⟨rfl, h₁⟩
    refine .seq (inner_sat u d) ?_
    rintro ⟨x, dk⟩ c₂ ⟨htk, hvk, h₂⟩
    have hc₂ := (hc.extends h₁).extends h₂
    refine .seq (typed_sat hm ht u dk c₂ hc₂ htk hu) ?_
    rintro key c₃ ⟨hk, h₃⟩
    refine .seq (inner_sat v d) ?_
    rintro ⟨y, dv⟩ c₄ ⟨htv, hvv, h₄⟩
    have hc₄ := (hc₂.extends h₃).extends h₄
    refine .seq (typed_sat hm ht v dv c₄ hc₄ htv hv) ?_
    rintro value c₅ ⟨he, h₅⟩
    refine .pure ⟨?_, ?_⟩
    · refine .map hh (hvk ▸ hk.mono fun key p hn => ?_) (hvv ▸ he)
      exact h₅.kept _ _ (h₄.kept _ _ hn)
    · simpa [Expr.uses, Schema.shape] using (((h₁.trans h₂).trans h₃).trans h₄).trans h₅
  | .tuple ts, d, c, hc, hd, hmt => by
    unfold typed
    refine hooked_or hc fun hh => ?_
    have h := ht.tuple d c hc.toReady (hd ▸ hmt) (hd ▸ hh) (hd ▸ rfl)
    exact h.imp fun e c' h => (hd ▸ h).converts hh trivial
  | .declared id, d, c, hc, hd, hmt => by
    unfold typed
    refine hooked_or hc fun hh => .bind <| .schema ?_
    split
    case h_1 hk =>
      have h := ht.record d c hc.toReady (hd ▸ hmt) (hd ▸ hh) (hd ▸ hk)
      exact h.imp fun e c' h => (hd ▸ h).converts hh (Schema.hasProcedure_of_kind (.inl hk))
    case h_2 hk =>
      have h := ht.union d c hc.toReady (hd ▸ hmt) (hd ▸ hh) (hd ▸ hk)
      exact h.imp fun e c' h => (hd ▸ h).converts hh (Schema.hasProcedure_of_kind (.inr <| .inl hk))
    case h_3 hk => exact leaf_sat hc.opened d.value hh (.inr (Schema.shape_of_kind_dynamic hk))
    case h_4 h₁ h₂ h₃ =>
      refine .bind <| .direction <| .throw ⟨_, hmt, hh, ?_, rfl⟩
      exact Schema.shape_declared_eq_foreign h₁ h₂ h₃

theorem value_sat (hm : Coverage s met keys) (ht : targets.Sound s met keys n) {d : Descriptor}
    (hc : Open keys n c) (hmt : met d.ty) :
    Sat (value targets d) s c (Converts s c d.ty d.value) (Refused s met) :=
  typed_sat hm ht d.ty d c hc rfl hmt

-- The expression for a field, and its helpers.
theorem field_sat (hm : Coverage s met keys) (ht : targets.Sound s met keys n) {f : Field}
    {arg : Operand} (hc : Open keys n c) (hmt : met f.ty) :
    Sat (field targets f arg) s c (fun e c' => FieldExpr s c'.guard.lookup f arg e ∧
      Extends s c [] (e.uses s f.ty) c') (Refused s met) := by
  refine .bind <| .schema ?_
  cases hp : f.param with
  | none =>
    exact (value_sat hm ht (d := (Descriptor.new s.schema f.ty arg).labelled f.name) hc hmt).imp
      fun e c' h => ⟨.inline hp h.form, h.bound⟩
  | some i =>
    refine (ht.slot _ ((Descriptor.new s.schema f.ty arg).labelled f.name) c hc.toReady rfl hmt).imp
      fun e c' h => ?_
    obtain ⟨⟨name, rfl, hn⟩, hb⟩ := h
    exact ⟨.slot hp hn, hb⟩

theorem assignField_sat (hm : Coverage s met keys) (ht : targets.Sound s met keys n) {f : Field}
    {arg : Operand} (i : Nat) (hc : Open keys n c) (hmt : met f.ty) :
    Sat (assignField targets i f arg) s c (fun _ c' => ∃ e, FieldExpr s c'.guard.lookup f arg e ∧
      Extends s c [.assign i arg e (f.default.map fun _ => f.defaultName)]
        (e.uses s f.ty ++ defaultUses f (f.default.map fun _ => f.defaultName)) c')
      (Refused s met) := by
  refine .seq (field_sat hm ht hc hmt) fun e c₁ ⟨he, h₁⟩ => ?_
  have hc₁ := hc.extends h₁
  cases hd : f.default with
  | none =>
    refine (emit_sat hc₁.opened _).imp ?_
    rintro _ _ rfl
    refine ⟨e, he, ?_⟩
    simpa [defaultUses] using h₁.trans (c₁.extends_extend s [.assign i arg e none] [])
  | some v =>
    refine .seq (bind_sat hc₁.opened _ _) ?_
    rintro _ _ rfl
    have h₂ := c₁.extends_extend s [] [("default_" ++ Text.identifier f.name, .default v)]
    refine (emit_sat (hc₁.extends h₂).opened _).imp ?_
    rintro _ _ rfl
    refine ⟨e, he, ?_⟩
    simpa [defaultUses, hd, Field.defaultName] using
      (h₁.trans h₂).trans (Context.extends_extend s _ _ [])

-- Statements of a form were compiled for fields, one after the other, with the helpers of them.
structure Emits (s : Settings) (c : Context)
    (form : (GuardKey → Option String) → List Stmt → Prop) (fs : List Field) (stmts : List Stmt)
    (bound : List (String × Binding)) (c' : Context) : Prop where
  form  : form c'.guard.lookup stmts
  uses  : ∀ t rest, Stmt.usesAll s t fs (stmts ++ rest) = bound ++ Stmt.usesAll s t [] rest
  bound : Extends s c stmts bound c'

theorem assignFields_sat (hm : Coverage s met keys) (ht : targets.Sound s met keys n)
    (source : Nat → Field → Operand) {fs : List Field} (i : Nat) (hc : Open keys n c)
    (hmt : ∀ f ∈ fs, met f.ty) :
    Sat (assignFields targets source i fs) s c
      (fun _ c' => ∃ stmts bound,
        Emits s c (Assigns s · source i fs) fs stmts bound c') (Refused s met) := by
  induction fs generalizing i c with
  | nil => exact .pure ⟨[], [], .nil, fun _ _ => rfl, .of_same rfl rfl⟩
  | cons f fs ih =>
    refine .seq (assignField_sat hm ht i hc (hmt f (by simp))) fun _ c₁ ⟨e, he, h₁⟩ => ?_
    refine (ih (i + 1) (hc.extends h₁) fun f hf => hmt f (by simp [hf])).imp ?_
    intro _ c₂ ⟨stmts, bound, hs⟩
    refine ⟨_, _, .cons (he.mono hs.bound.kept) hs.form, fun t rest => ?_, h₁.trans hs.bound⟩
    simp [Stmt.usesAll, hs.uses]

-- The elements of a tuple are assigned like fields without defaults.
theorem assignElements_sat (hm : Coverage s met keys) (ht : targets.Sound s met keys n)
    (label base : String) {ts : List Ty} (i : Nat) (hc : Open keys n c) (hmt : ∀ t ∈ ts, met t) :
    Sat (assignElements targets label base i ts) s c
      (fun _ c' => ∃ stmts bound,
        Emits s c (Assigns s · (fun i _ => .item base i) i (ts.map .ofElement)) (ts.map .ofElement)
          stmts bound c')
      (Refused s met) := by
  induction ts generalizing i c with
  | nil => exact .pure ⟨[], [], .nil, fun _ _ => rfl, .of_same rfl rfl⟩
  | cons t ts ih =>
    refine .bind <| .schema <| .seq (value_sat hm ht hc (hmt t (by simp))) fun e c₁ ⟨he, h₁⟩ => ?_
    refine .seq (emit_sat (hc.extends h₁).opened _) ?_
    rintro _ _ rfl
    have h₁ := h₁.trans (c₁.extends_extend s [.assign i (.item base i) e none] [])
    refine (ih (i + 1) (hc.extends h₁) fun t ht => hmt t (by simp [ht])).imp ?_
    intro _ c₂ ⟨stmts, bound, hs⟩
    refine ⟨_, _, .cons (.inline rfl (he.mono hs.bound.kept)) hs.form, fun t' rest => ?_,
      h₁.trans hs.bound⟩
    simp [Stmt.usesAll, hs.uses, defaultUses, Field.ofElement]
    rfl

theorem dumpFields_sat (hm : Coverage s met keys) (ht : targets.Sound s met keys n)
    (base : String) (positional omitNull : Bool) {fs : List Field} (i : Nat) (hc : Open keys n c)
    (hmt : ∀ f ∈ fs, met f.ty) :
    Sat (dumpFields targets base positional omitNull i fs) s c
      (fun _ c' => ∃ stmts bound, Emits s c
        (Outputs s · (fun i f => .attr base "cls" i f.name)
          (fun f e => if positional then .push e else .insert f.key e omitNull) i fs) fs
        stmts bound c')
      (Refused s met) := by
  induction fs generalizing i c with
  | nil => exact .pure ⟨[], [], .nil, fun _ _ => rfl, .of_same rfl rfl⟩
  | cons f fs ih =>
    refine .seq (field_sat hm ht hc (hmt f (by simp))) fun e c₁ ⟨he, h₁⟩ => ?_
    refine .seq (emit_sat (hc.extends h₁).opened _) ?_
    rintro _ _ rfl
    have h₁ := h₁.trans
      (c₁.extends_extend s [if positional then .push e else .insert f.key e omitNull] [])
    refine (ih (i + 1) (hc.extends h₁) fun f hf => hmt f (by simp [hf])).imp ?_
    intro _ c₂ ⟨stmts, bound, hs⟩
    refine ⟨_, _, .cons (he.mono hs.bound.kept) hs.form, fun t rest => ?_, h₁.trans hs.bound⟩
    cases positional <;> simp [Stmt.usesAll, hs.uses]

theorem dumpElements_sat (hm : Coverage s met keys) (ht : targets.Sound s met keys n)
    (label base : String) {ts : List Ty} (i : Nat) (hc : Open keys n c) (hmt : ∀ t ∈ ts, met t) :
    Sat (dumpElements targets label base i ts) s c
      (fun _ c' => ∃ stmts bound, Emits s c
        (Outputs s · (fun i _ => .element base "cls" i) (fun _ e => .push e) i (ts.map .ofElement))
        (ts.map .ofElement) stmts bound c')
      (Refused s met) := by
  induction ts generalizing i c with
  | nil => exact .pure ⟨[], [], .nil, fun _ _ => rfl, .of_same rfl rfl⟩
  | cons t ts ih =>
    refine .bind <| .schema <| .seq (value_sat hm ht hc (hmt t (by simp))) fun e c₁ ⟨he, h₁⟩ => ?_
    refine .seq (emit_sat (hc.extends h₁).opened _) ?_
    rintro _ _ rfl
    have h₁ := h₁.trans (c₁.extends_extend s [.push e] [])
    refine (ih (i + 1) (hc.extends h₁) fun t ht => hmt t (by simp [ht])).imp ?_
    intro _ c₂ ⟨stmts, bound, hs⟩
    refine ⟨_, _, .cons (.inline rfl (he.mono hs.bound.kept)) hs.form, fun t' rest => ?_,
      h₁.trans hs.bound⟩
    simp [Stmt.usesAll, hs.uses]
    rfl

theorem alternatives_sat (hm : Coverage s met keys) (ht : targets.Sound s met keys n)
    (x : String) {variants : List Variant} (hc : Open keys n c)
    (hmt : ∀ v ∈ variants, met v.ty) :
    Sat (alternatives targets x variants) s c
      (fun es c' => Alternatives s c'.guard.lookup x variants es ∧
        Extends s c [] (Expr.usesAll s es (variants.map Variant.ty)) c')
      (Refused s met) := by
  induction variants generalizing c with
  | nil => exact .pure ⟨.nil, .of_same rfl rfl⟩
  | cons v vs ih =>
    refine .bind <| .schema <| .seq (value_sat hm ht hc (hmt v (by simp))) fun e c₁ ⟨he, h₁⟩ => ?_
    refine .seq (ih (hc.extends h₁) fun v hv => hmt v (by simp [hv])) fun es c₂ ⟨hes, h₂⟩ => ?_
    refine .pure ⟨.cons (he.mono h₂.kept) hes, ?_⟩
    exact h₁.trans h₂

-- The body of the procedure of a target was compiled.
def Fills (s : Settings) (c : Context) (key : GuardKey) (c' : Context) : Prop :=
  ∃ body, BodyFor s c'.guard.lookup key body ∧
    Extends s c body (bodyUses s key.subject body) c'

theorem fields_met (hm : Coverage s met keys) {t : Ty} {fields : List Field} {positional : Bool}
    (hmt : met t) (hh : s.hook? t = none) (hs : s.schema.shape t = .record fields positional) :
    ∀ f ∈ fields, met f.ty :=
  fun f hf => hm.closed t f.ty hmt hh (by simp [Schema.within, hs]; exact ⟨f, hf, rfl⟩)

theorem elements_met (hm : Coverage s met keys) {t : Ty} {ts : List Ty} (hmt : met t)
    (hh : s.hook? t = none) (hs : s.schema.shape t = .tuple ts) : ∀ u ∈ ts, met u :=
  fun u hu => hm.closed t u hmt hh (by simpa [Schema.within, hs])

-- A body is done when its last statement, which has no helpers, is emitted after those for the parts.
theorem Emits.fills {t : Ty} {head stmts : List Stmt} {last : Stmt}
    {form : (GuardKey → Option String) → List Stmt → Prop} {bound : List (String × Binding)}
    {c₁ c₂ : Context} {fs : List Field} (hfs : s.schema.parts t = fs) (h₁ : Extends s c head [] c₁)
    (h₂ : Emits s c₁ form fs stmts bound c₂)
    (hhead : ∀ rest, Stmt.usesAll s t fs (head ++ rest) = Stmt.usesAll s t fs rest)
    (hlast : Stmt.usesAll s t [] [last] = [])
    (hbody : BodyFor s c₂.guard.lookup (.origin t) (head ++ (stmts ++ [last]))) :
    Fills s c (.origin t) (c₂.extend [last] []) := by
  refine ⟨_, hbody, ?_⟩
  have hu : bodyUses s t (head ++ (stmts ++ [last])) = bound := by
    rw [bodyUses, hfs, hhead, h₂.uses, hlast, List.append_nil]
  rw [GuardKey.subject, hu]
  simpa using (h₁.trans h₂.bound).trans (c₂.extends_extend s [last] [])

-- The check of the keys is there if the options ask for it.
theorem keyChecks_sat {d : Descriptor} {fields : List Field} {rest : Unit → CompileM Unit}
    {post : Unit → Context → Prop} {fail : CodegenError → Prop} (hc : c.builder.pending ≠ [])
    (hv : d.value = .var "v1")
    (hrest : ∀ c', Extends s c (keyChecks s fields) [] c' → Sat (rest ()) s c' post fail) :
    Sat (if s.options.denyUnknownKeys then do
        let r ← emit (.rejectUnknownKeys d.value (fields.map Field.key))
        rest r
      else rest ()) s c post fail := by
  by_cases ho : s.options.denyUnknownKeys = true
  · rw [if_pos ho]
    refine .seq (emit_sat hc _) ?_
    rintro _ _ rfl
    apply hrest
    rw [keyChecks, if_pos ho, hv]
    exact c.extends_extend s _ []
  · rw [if_neg ho]
    apply hrest
    rw [keyChecks, if_neg ho]
    exact .of_same rfl rfl

theorem loadRecord_sat (hm : Coverage s met keys) (ht : targets.Sound s met keys n)
    {d : Descriptor} (hc : Open keys n c) (hd : s.direction = .load) (hv : d.value = .var "v1")
    (hmt : met d.ty) (hh : s.hook? d.ty = none) {fields : List Field} {positional : Bool}
    (hs : s.schema.shape d.ty = .record fields positional) :
    Sat (loadRecord targets d s.options) s c (fun _ => Fills s c (.origin d.ty))
      (Refused s met) := by
  have hfields : s.schema.fields d.ty = .ok (fields, positional) := by simp [Schema.fields, hs]
  have hparts : s.schema.parts d.ty = fields := by simp [Schema.parts, hs]
  have hmf := fields_met hm hmt hh hs
  refine .bind <| .schema <| .bind <| .liftKind hfields ?_
  cases positional with
  | true =>
    refine .seq (emit_sat hc.opened _) ?_
    rintro _ _ rfl
    have h₁ := c.extends_extend s [.beginSequence d.value (requiredLength fields) fields.length] []
    refine .seq (assignFields_sat hm ht _ 0 (hc.extends h₁) hmf) fun _ c₂ ⟨stmts, bound, h₂⟩ => ?_
    refine (emit_sat ((hc.extends h₁).extends h₂.bound).opened _).imp ?_
    rintro _ _ rfl
    rw [hv] at h₁ h₂
    exact h₂.fills hparts h₁ (fun _ => by simp [Stmt.usesAll]) rfl (.loadSequence hd hh hs h₂.form)
  | false =>
    refine .seq (emit_sat hc.opened _) ?_
    rintro _ _ rfl
    have h₁ := c.extends_extend s [.beginMapping d.value] []
    refine keyChecks_sat (hc.extends h₁).opened hv fun c₁ h₁' => ?_
    have h₁ := h₁.trans h₁'
    refine .seq (assignFields_sat hm ht _ 0 (hc.extends h₁) hmf) fun _ c₂ ⟨stmts, bound, h₂⟩ => ?_
    refine (emit_sat ((hc.extends h₁).extends h₂.bound).opened _).imp ?_
    rintro _ _ rfl
    rw [hv] at h₁ h₂
    refine h₂.fills hparts h₁ (fun _ => ?_) rfl ?_
    · unfold keyChecks
      split <;> simp [Stmt.usesAll]
    · exact .loadMapping hd hh hs h₂.form

theorem loadTuple_sat (hm : Coverage s met keys) (ht : targets.Sound s met keys n)
    {d : Descriptor} (hc : Open keys n c) (hd : s.direction = .load) (hv : d.value = .var "v1")
    (hmt : met d.ty) (hh : s.hook? d.ty = none) {ts : List Ty}
    (hs : s.schema.shape d.ty = .tuple ts) :
    Sat (loadTuple targets d) s c (fun _ => Fills s c (.origin d.ty)) (Refused s met) := by
  have helements : s.schema.elements d.ty = .ok ts := by simp [Schema.elements, hs]
  have hparts : s.schema.parts d.ty = ts.map .ofElement := by simp [Schema.parts, hs]
  refine .bind <| .schema <| .bind <| .liftKind helements <| .seq (emit_sat hc.opened _) ?_
  rintro _ _ rfl
  have h₁ := c.extends_extend s [.beginSequence d.value ts.length ts.length] []
  refine .seq (assignElements_sat hm ht _ _ 0 (hc.extends h₁) (elements_met hm hmt hh hs))
    fun _ c₂ ⟨stmts, bound, h₂⟩ => ?_
  refine (emit_sat ((hc.extends h₁).extends h₂.bound).opened _).imp ?_
  rintro _ _ rfl
  rw [hv] at h₁ h₂
  exact h₂.fills hparts h₁ (fun _ => by simp [Stmt.usesAll]) rfl (.loadTuple hd hh hs h₂.form)

theorem dumpRecord_sat (hm : Coverage s met keys) (ht : targets.Sound s met keys n)
    {d : Descriptor} (hc : Open keys n c) (hd : s.direction = .dump) (hv : d.value = .var "o")
    (hmt : met d.ty) (hh : s.hook? d.ty = none) {fields : List Field} {positional : Bool}
    (hs : s.schema.shape d.ty = .record fields positional) :
    Sat (dumpRecord targets d s.options) s c (fun _ => Fills s c (.origin d.ty))
      (Refused s met) := by
  have hfields : s.schema.fields d.ty = .ok (fields, positional) := by simp [Schema.fields, hs]
  have hparts : s.schema.parts d.ty = fields := by simp [Schema.parts, hs]
  refine .bind <| .schema <| .bind <| .liftKind hfields <| .seq (emit_sat hc.opened _) ?_
  rintro _ _ rfl
  have h₁ := c.extends_extend s [if positional then .openSequence else .openMapping] []
  refine .seq (dumpFields_sat hm ht _ _ _ 0 (hc.extends h₁) (fields_met hm hmt hh hs))
    fun _ c₂ ⟨stmts, bound, h₂⟩ => ?_
  refine (emit_sat ((hc.extends h₁).extends h₂.bound).opened _).imp ?_
  rintro _ _ rfl
  rw [hv] at h₂
  cases positional with
  | true =>
    exact h₂.fills hparts h₁ (fun _ => by simp [Stmt.usesAll]) rfl (.dumpSequence hd hh hs h₂.form)
  | false =>
    exact h₂.fills hparts h₁ (fun _ => by simp [Stmt.usesAll]) rfl (.dumpMapping hd hh hs h₂.form)

theorem dumpTuple_sat (hm : Coverage s met keys) (ht : targets.Sound s met keys n)
    {d : Descriptor} (hc : Open keys n c) (hd : s.direction = .dump) (hv : d.value = .var "o")
    (hmt : met d.ty) (hh : s.hook? d.ty = none) {ts : List Ty}
    (hs : s.schema.shape d.ty = .tuple ts) :
    Sat (dumpTuple targets d) s c (fun _ => Fills s c (.origin d.ty)) (Refused s met) := by
  have helements : s.schema.elements d.ty = .ok ts := by simp [Schema.elements, hs]
  have hparts : s.schema.parts d.ty = ts.map .ofElement := by simp [Schema.parts, hs]
  refine .bind <| .schema <| .bind <| .liftKind helements <| .seq (emit_sat hc.opened _) ?_
  rintro _ _ rfl
  have h₁ := c.extends_extend s [.openSequence] []
  refine .seq (dumpElements_sat hm ht _ _ 0 (hc.extends h₁) (elements_met hm hmt hh hs))
    fun _ c₂ ⟨stmts, bound, h₂⟩ => ?_
  refine (emit_sat ((hc.extends h₁).extends h₂.bound).opened _).imp ?_
  rintro _ _ rfl
  rw [hv] at h₂
  exact h₂.fills hparts h₁ (fun _ => by simp [Stmt.usesAll]) rfl (.dumpTuple hd hh hs h₂.form)

-- The parameter of the procedure is what a descriptor of a target is read from.
theorem record_sat (hm : Coverage s met keys) (ht : targets.Sound s met keys n) {d : Descriptor}
    (hc : Open keys n c) (hv : d.value = .var s.direction.param) (hmt : met d.ty)
    (hh : s.hook? d.ty = none) (hk : s.schema.kind d.ty = .record) :
    Sat (record targets d s.options) s c (fun _ => Fills s c (.origin d.ty)) (Refused s met) := by
  obtain ⟨fields, positional, hs⟩ : ∃ fields positional,
      s.schema.shape d.ty = .record fields positional := by
    cases hs : s.schema.shape d.ty <;> simp_all [Schema.kind, Shape.kind]
  refine .bind <| .direction ?_
  cases hd : s.direction with
  | load => exact loadRecord_sat hm ht hc hd (by rw [hv, hd]; rfl) hmt hh hs
  | dump => exact dumpRecord_sat hm ht hc hd (by rw [hv, hd]; rfl) hmt hh hs

theorem tuple_sat (hm : Coverage s met keys) (ht : targets.Sound s met keys n) {d : Descriptor}
    (hc : Open keys n c) (hv : d.value = .var s.direction.param) (hmt : met d.ty)
    (hh : s.hook? d.ty = none) (hk : s.schema.kind d.ty = .tuple) :
    Sat (tuple targets d) s c (fun _ => Fills s c (.origin d.ty)) (Refused s met) := by
  obtain ⟨ts, hs⟩ : ∃ ts, s.schema.shape d.ty = .tuple ts := by
    cases hs : s.schema.shape d.ty <;> simp_all [Schema.kind, Shape.kind]
  refine .bind <| .direction ?_
  cases hd : s.direction with
  | load => exact loadTuple_sat hm ht hc hd (by rw [hv, hd]; rfl) hmt hh hs
  | dump => exact dumpTuple_sat hm ht hc hd (by rw [hv, hd]; rfl) hmt hh hs

theorem union_sat (hm : Coverage s met keys) (ht : targets.Sound s met keys n) {d : Descriptor}
    (hc : Open keys n c) (hv : d.value = .var s.direction.param) (hmt : met d.ty)
    (hh : s.hook? d.ty = none) (hk : s.schema.kind d.ty = .union) :
    Sat (union targets d) s c (fun _ => Fills s c (.origin d.ty)) (Refused s met) := by
  obtain ⟨variants, hs⟩ : ∃ variants, s.schema.shape d.ty = .union variants := by
    cases hs : s.schema.shape d.ty <;> simp_all [Schema.kind, Shape.kind]
  have hvariants : s.schema.variants d.ty = .ok variants := by simp [Schema.variants, hs]
  refine .bind <| .schema <| .bind <| .liftKind hvariants ?_
  refine .seq (bindHelper_sat hc.opened "union" d.ty) ?_
  rintro helper c₁ ⟨rfl, h₁⟩
  refine .seq freshBinder_sat fun x c₂ h₂ => ?_
  have hc₂ := (hc.extends h₁).extends h₂
  have hmv : ∀ v ∈ variants, met v.ty := fun v hv =>
    hm.closed d.ty v.ty hmt hh (by simp [Schema.within, hs]; exact ⟨v, hv, rfl⟩)
  refine .seq (alternatives_sat hm ht x hc₂ hmv) ?_
  rintro es c₃ ⟨hes, h₃⟩
  refine (emit_sat (hc₂.extends h₃).opened _).imp ?_
  rintro _ _ rfl
  rw [hv]
  refine ⟨_, BodyFor.union hh hs hes, ?_⟩
  simpa [bodyUses, Schema.parts, hs, Stmt.usesAll, Expr.uses, GuardKey.subject] using
    ((h₁.trans h₂).trans h₃).trans (c₃.extends_extend s [.returnValue _] [])

-- A procedure that returns the value of an expression.
theorem returnValue_sat (hm : Coverage s met keys) (ht : targets.Sound s met keys n)
    {d : Descriptor} (key : GuardKey) (hc : Open keys n c) (hkey : key.subject = d.ty)
    (hmt : met d.ty)
    (hbody : ∀ name? e, ExprFor s name? d.ty d.value e → BodyFor s name? key [.returnValue e]) :
    Sat (do emit (.returnValue (← value targets d))) s c (fun _ => Fills s c key)
      (Refused s met) := by
  refine .seq (value_sat hm ht hc hmt) fun e c₁ ⟨he, h₁⟩ => ?_
  refine (emit_sat (hc.extends h₁).opened _).imp ?_
  rintro _ _ rfl
  refine ⟨_, hbody _ e he, ?_⟩
  simpa [bodyUses, Stmt.usesAll, hkey] using h₁.trans (c₁.extends_extend s [.returnValue e] [])

theorem slot_sat (hm : Coverage s met keys) (ht : targets.Sound s met keys n) {d d' : Descriptor}
    (hc : Open keys n c) (hv : d.value = .var s.direction.param) (hg : d.given = some [d'])
    (hmt : met d'.ty) :
    Sat (slot targets d) s c (fun _ => Fills s c (.arguments [d'.ty])) (Refused s met) := by
  refine .bind <| .schema ?_
  have ha : (d.arguments s.schema).head? = some d' := by simp [Descriptor.arguments, hg]
  simp only [ha]
  exact returnValue_sat hm ht (.arguments [d'.ty]) hc rfl hmt fun _ _ he => .slot (hv ▸ he)

end Typed
end TreeCodec
