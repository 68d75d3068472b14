import TreeCodec.Proofs.Form
import TreeCodec.Compile.Converter

/-!
Two compilations side by side.

The steps of a compilation look at the settings in a few places. Under settings that have the same
schema and the same hooks in the direction of the compilation, all that can differ are the statements
that options decide. So one compilation is the other one with its statements edited.
-/
namespace TreeCodec

/-! ## Edits -/

-- What becomes of a statement.
abbrev Edit := Stmt → List Stmt

namespace Edit

def keep : Edit := fun stmt => [stmt]

variable (f : Edit)

def procedure (p : Procedure) : Procedure := { p with body := p.body.flatMap f }

def builder (b : Builder) : Builder where
  record  := b.record
  sealed  := b.sealed.map f.procedure
  index   := b.index
  pending := b.pending.map f.procedure

def context (c : Context) : Context := { c with builder := f.builder c.builder }

-- An error may quote a statement.
def error : CodegenError → CodegenError
  | .builderState (.emittedOutside stmt) =>
    match f stmt with
    | [stmt'] => .builderState (.emittedOutside stmt')
    | _ => .builderState (.emittedOutside stmt)
  | e => e

def result {σ α β : Type} (state : σ → σ) (g : α → β) :
    EStateM.Result CodegenError σ α → EStateM.Result CodegenError σ β
  | .ok a c => .ok (g a) (state c)
  | .error e c => .error (f.error e) (state c)

section Builders

variable (b : Builder)

theorem procedure_keep (p : Procedure) : keep.procedure p = p := by
  have h : p.body.flatMap keep = p.body := List.flatMap_singleton' _
  simp [procedure, h]

theorem builder_keep : keep.builder b = b := by
  have h : keep.procedure = id := funext procedure_keep
  simp [builder, h]

theorem context_keep (c : Context) : keep.context c = c := by
  simp [context, builder_keep]

theorem error_keep (e : CodegenError) : keep.error e = e := by
  unfold error
  split <;> rfl

theorem builder_append (p : Procedure) :
    f.builder (b.append p) = (f.builder b).append (f.procedure p) := by
  simp [builder, Builder.append, procedure]

theorem builder_appendAll (ps : List Procedure) :
    f.builder (b.appendAll ps) = (f.builder b).appendAll (ps.map f.procedure) := by
  induction ps generalizing b with
  | nil => rfl
  | cons p ps ih =>
    show f.builder ((b.append p).appendAll ps) = _
    rw [ih, builder_append]
    rfl

theorem isDefined_builder (name : String) : (f.builder b).isDefined name = b.isDefined name := by
  simp only [Builder.isDefined, builder, List.any_map]
  rfl

@[simp] theorem sealed_builder : (f.builder b).sealed = b.sealed.map f.procedure := rfl

@[simp] theorem pending_builder : (f.builder b).pending = b.pending.map f.procedure := rfl

@[simp] theorem name_procedure (p : Procedure) : (f.procedure p).name = p.name := rfl

-- The operations of a builder do the same to an edited one.

theorem run_emit {stmt stmt' : Stmt} (h : f stmt = [stmt']) :
    (Builder.emit stmt').run (f.builder b) = f.result f.builder id ((Builder.emit stmt).run b) := by
  cases hb : b.pending <;> simp [Builder.emit, hb, result, error, h, builder, procedure]

-- A statement that is left out, behind one that is not.
theorem run_emit_emit {stmt stmt' dropped : Stmt} (h : f stmt = [stmt']) (hd : f dropped = []) :
    (Builder.emit stmt').run (f.builder b) =
      f.result f.builder id
        ((Builder.emit stmt >>= fun _ => Builder.emit dropped).run b) := by
  cases hb : b.pending <;> simp [Builder.emit, hb, result, error, h, hd, builder, procedure]

theorem run_bind (name : String) (binding : Binding) :
    (Builder.bind name binding).run (f.builder b) =
      f.result f.builder id ((Builder.bind name binding).run b) := by
  cases hb : b.pending <;> simp [Builder.bind, hb, result, error, builder, procedure]

theorem run_begin (name : String) (signature : Signature) (locals : Locals) :
    (Builder.begin name signature locals).run (f.builder b) =
      f.result f.builder id ((Builder.begin name signature locals).run b) := by
  have h := f.isDefined_builder b name
  cases hb : b.isDefined name <;> simp [Builder.begin, h, hb, result, error]
  rfl

theorem run_finish :
    Builder.finish.run (f.builder b) = f.result f.builder id (Builder.finish.run b) := by
  cases hb : b.pending with
  | nil => simp [Builder.finish, hb, result, error]
  | cons p rest =>
    have hs : (f.builder b).isSealed p.name = b.isSealed p.name := rfl
    cases hd : b.isSealed p.name <;> simp [Builder.finish, hb, result, error, hs, hd]
    case true => rfl
    case false => simp [builder, Builder.append]

theorem run_merge (other : Builder) :
    (Builder.merge (f.builder other)).run (f.builder b) =
      f.result f.builder id ((Builder.merge other).run b) := by
  cases hp : other.pending with
  | cons p ps => simp [Builder.merge, hp, result, error]
  | nil =>
    have hf : (fun p => (f.builder b).isDefined p.name) ∘ f.procedure =
        fun p => b.isDefined p.name :=
      funext fun p => f.isDefined_builder b p.name
    cases hd : other.sealed.find? fun p => b.isDefined p.name <;>
      simp [Builder.merge, hp, hf, hd, result, error, builder_appendAll]

end Builders
end Edit

/-! ## Steps -/

-- Statements that no option has a part in.
def Stmt.plain : Stmt → Bool
  | .rejectUnknownKeys .. | .insert .. => false
  | _ => true

-- Options that differ by an edit.
structure Options.Alike (f : Edit) (o o' : Options) : Prop where
  plain   : ∀ stmt : Stmt, stmt.plain → f stmt = [stmt]
  checks  : ∀ arg keys, (if o.denyUnknownKeys then f (.rejectUnknownKeys arg keys) else []) =
    if o'.denyUnknownKeys then [.rejectUnknownKeys arg keys] else []
  inserts : ∀ key e, f (.insert key e o.omitNull) = [.insert key e o'.omitNull]

-- Settings that differ in the hooks of the other direction and, by an edit, in the options.
structure Settings.Alike (f : Edit) (s s' : Settings) : Prop where
  schema    : s.schema = s'.schema
  direction : s.direction = s'.direction
  options   : s.options.Alike f s'.options
  hook?     : ∀ t, s.hook? t = s'.hook? t

namespace CompileM

variable {α β γ δ : Type} {f : Edit}

-- What a step does under settings, the other one does under settings that are alike, up to an edit
-- and a map of what they give.
def Mirrors (f : Edit) (g : α → β) (x : CompileM α) (y : CompileM β) : Prop :=
  ∀ s s', s.Alike f s' → ∀ c, y s' (f.context c) = f.result f.context g (x s c)

theorem onBuilder_bind (op : BuilderM α) (k : α → BuilderM β) :
    onBuilder (op >>= k) = onBuilder op >>= fun a => onBuilder (k a) := by
  funext s c
  show onBuilder (EStateM.bind op k) s c =
    EStateM.bind (onBuilder op s) (fun a => onBuilder (k a) s) c
  unfold onBuilder EStateM.bind EStateM.run
  beta_reduce
  cases op c.builder <;> rfl

namespace Mirrors

theorem pure {g : α → β} (a : α) : Mirrors f g (Pure.pure a) (Pure.pure (g a)) :=
  fun _ _ _ _ => rfl

theorem throw {g : α → β} (e : CodegenError) :
    Mirrors f g (MonadExcept.throw e) (MonadExcept.throw (f.error e)) :=
  fun _ _ _ _ => rfl

theorem bind {g : α → β} {h : γ → δ} {x : CompileM α} {y : CompileM β} {k : α → CompileM γ}
    {l : β → CompileM δ} (hx : Mirrors f g x y) (hk : ∀ a, Mirrors f h (k a) (l (g a))) :
    Mirrors f h (x >>= k) (y >>= l) := by
  intro s s' hs c
  show EStateM.bind (y s') (fun b => l b s') (f.context c) =
    f.result f.context h (EStateM.bind (x s) (fun a => k a s) c)
  unfold EStateM.bind
  rw [hx s s' hs c]
  cases x s c with
  | ok a c => exact hk a s s' hs c
  | error e c => rfl

-- What is made of settings that are read may depend on how they are alike.
theorem read {g : α → β} {k : Settings → CompileM α} {l : Settings → CompileM β}
    (h : ∀ s s', s.Alike f s' → Mirrors f g (k s) (l s')) :
    Mirrors f g (MonadReader.read >>= k) (MonadReader.read >>= l) :=
  fun s s' hs c => h s s' hs s s' hs c

theorem get : Mirrors f f.context get get :=
  fun _ _ _ _ => rfl

theorem set (c : Context) : Mirrors f id (set c : CompileM Unit) (set (f.context c)) :=
  fun _ _ _ _ => rfl

theorem ofExcept (x : Except CodegenError α) :
    Mirrors f id (ofExcept x) (ofExcept (x.mapError f.error)) := by
  cases x with
  | ok a => exact pure a
  | error e => exact throw e

theorem onBuilder {op op' : BuilderM α}
    (h : ∀ b, op'.run (f.builder b) = f.result f.builder id (op.run b)) :
    Mirrors f id (onBuilder op) (onBuilder op') := by
  intro s s' hs c
  have hop : op'.run (f.context c).builder = f.result f.builder id (op.run c.builder) := h c.builder
  unfold CompileM.onBuilder
  rw [hop]
  cases op.run c.builder <;> rfl

theorem attempt {x y : CompileM α} (h : Mirrors f id x y) :
    Mirrors f (Except.mapError f.error) (attempt x) (attempt y) := by
  intro s s' hs c
  unfold CompileM.attempt
  rw [h s s' hs]
  cases x s c <;> rfl

-- The context of a procedure within another one is edited as well.
theorem nested {displayName name : String} {x y : CompileM α} (h : Mirrors f id x y) :
    Mirrors f (fun (r, c) => (r.mapError f.error, f.context c)) (nested displayName name x)
      (nested displayName name y) := by
  intro s s' hs c
  have hstep := h s s' hs (c.child displayName name)
  have hchild : (f.context c).child displayName name = f.context (c.child displayName name) := rfl
  unfold CompileM.nested
  rw [hchild, hstep]
  cases x s (c.child displayName name) <;> rfl

end Mirrors

-- A step that mirrors itself.
abbrev Mirrored (f : Edit) (x : CompileM α) : Prop :=
  Mirrors f id x x

theorem Mirrors.after {g : β → γ} {x : CompileM α} {k : α → CompileM β} {l : α → CompileM γ}
    (hx : Mirrored f x) (hk : ∀ a, Mirrors f g (k a) (l a)) : Mirrors f g (x >>= k) (x >>= l) :=
  .bind hx hk

namespace Mirrored

theorem pure (a : α) : Mirrored f (Pure.pure a) :=
  Mirrors.pure a

theorem bind {x : CompileM α} {k : α → CompileM β} (hx : Mirrored f x)
    (hk : ∀ a, Mirrored f (k a)) : Mirrored f (x >>= k) :=
  Mirrors.bind hx hk

-- An error that quotes no statement.
theorem throw {e : CodegenError} (h : f.error e = e) :
    Mirrored f (MonadExcept.throw e : CompileM α) := by
  have hm := Mirrors.throw (f := f) (g := (id : α → α)) e
  rwa [h] at hm

theorem liftKind (x : Except KindMismatch α) : Mirrored f (Compile.liftKind x) := by
  cases x with
  | ok a => exact pure a
  | error e => exact throw rfl

theorem schema : Mirrored f CompileM.schema :=
  fun _ _ h _ => congrArg (EStateM.Result.ok · _) h.schema.symm

theorem direction : Mirrored f CompileM.direction :=
  fun _ _ h _ => congrArg (EStateM.Result.ok · _) h.direction.symm

theorem hook? (t : Ty) : Mirrored f (CompileM.hook? t) := by
  have heq (s : Settings) :
      CompileM.hook? t s = (Pure.pure (s.hook? t) : EStateM CodegenError Context _) := by
    obtain ⟨S, d, hooks, options⟩ := s
    cases d <;> rfl
  intro s s' h c
  rw [heq, heq, h.hook? t]
  rfl

-- A change of what is not edited.
theorem modify {h : Context → Context} (hh : ∀ c, h (f.context c) = f.context (h c)) :
    Mirrored f (modify h : CompileM Unit) :=
  fun _ _ _ c => congrArg (EStateM.Result.ok () ·) (hh c)

theorem emit {stmt : Stmt} (h : stmt.plain) : Mirrored f (emit stmt) :=
  fun s s' hs => Mirrors.onBuilder (fun b => f.run_emit b (hs.options.plain stmt h)) s s' hs

theorem bindName (name : String) (b : Binding) : Mirrored f (CompileM.bind name b) :=
  .onBuilder fun c => f.run_bind c name b

theorem freshBinder : Mirrored f freshBinder :=
  .bind (.modify fun _ => rfl) fun _ => .bind direction fun _ =>
    Mirrors.bind .get fun _ => Mirrors.pure _

theorem param : Mirrored f param := by
  refine .bind direction fun d => ?_
  cases d <;> exact pure _

theorem lookup (key : GuardKey) : Mirrored f (lookup key) :=
  fun _ _ _ _ => rfl

theorem reserve (key : GuardKey) (wanted : String) : Mirrored f (reserve key wanted) :=
  fun _ _ _ _ => rfl

end Mirrored

-- A procedure is begun and sealed around the step that emits its body.
theorem Mirrors.procedure {x y : CompileM Unit} (h : Mirrors f id x y) :
    Mirrors f id (procedure x) (procedure y) := by
  refine .bind .get fun c => ?_
  obtain ⟨_, _, procedureName, seeds, _⟩ := c
  cases procedureName with
  | none => exact Mirrored.throw rfl
  | some name =>
    refine .bind (.set _) fun _ => .bind Mirrored.direction fun d => ?_
    refine .bind (.onBuilder fun b => f.run_begin b name (.of d) seeds) fun _ => ?_
    refine .bind h.attempt fun emitted => ?_
    refine .bind (attempt <| .onBuilder f.run_finish) fun sealed => ?_
    exact .bind (.ofExcept emitted) fun _ => .ofExcept sealed

end CompileM

open CompileM

-- The calls of targets mirror themselves.
structure Targets.Mirrored (f : Edit) (targets : Targets) : Prop where
  record : ∀ d, CompileM.Mirrored f (targets.record d)
  union  : ∀ d, CompileM.Mirrored f (targets.union d)
  tuple  : ∀ d, CompileM.Mirrored f (targets.tuple d)
  slot   : ∀ d, CompileM.Mirrored f (targets.slot d)

/-! ## Compilers -/

namespace Compile

variable {f : Edit}

theorem bindHelper_mirrored (kind : String) (t : Ty) : Mirrored f (bindHelper kind t) :=
  .bind .schema fun _ => .bind (.bindName _ _) fun _ => .pure _

theorem inner_mirrored (t : Ty) (parent : Descriptor) : Mirrored f (inner t parent) :=
  .bind .schema fun _ => .bind .freshBinder fun _ => .pure _

theorem hooked_mirrored (t : Ty) (arg : Operand) : Mirrored f (hooked t arg) := by
  refine .bind (.hook? t) fun b => ?_
  cases b with
  | none => exact .pure _
  | some b => exact .bind .schema fun _ => .bind (.bindName _ _) fun _ => .pure _

theorem leaf_mirrored (t : Ty) (arg : Operand) : Mirrored f (leaf t arg) :=
  .bind .schema fun _ => .bind (.bindName _ _) fun _ => .pure _

-- A value in another one is compiled after the helper of the outer one was bound.
theorem nested_mirrored {t u : Ty} {d : Descriptor} {kind : String}
    {rest : Descriptor → CompileM Expr} {wrap : String → String → Expr → Expr}
    (hrest : ∀ d, Mirrored f (rest d)) :
    Mirrored f (do
      let helper ← bindHelper kind t
      let (binder, e) ← inner u d
      return wrap helper binder (← rest e)) :=
  .bind (bindHelper_mirrored _ _) fun _ => .bind (inner_mirrored _ _) fun _ =>
    .bind (hrest _) fun _ => .pure _

theorem hooked_or_mirrored {t : Ty} {arg : Operand} {rest : CompileM Expr} (h : Mirrored f rest) :
    Mirrored f (do if let some e ← hooked t arg then return e else rest) := by
  refine .bind (hooked_mirrored _ _) fun found => ?_
  cases found with
  | none => exact h
  | some e => exact .pure e

variable {targets : Targets} (h : targets.Mirrored f)
include h

theorem typed_mirrored : ∀ (t : Ty) (d : Descriptor), Mirrored f (typed targets t d)
  | .scalar _, d | .dynamic, d => by
    unfold typed
    exact hooked_or_mirrored <| leaf_mirrored _ _
  | .optional u, d | .boxed u, d | .list _ u, d => by
    unfold typed
    exact hooked_or_mirrored <| nested_mirrored <| typed_mirrored u
  | .map _ u v, d => by
    unfold typed
    refine hooked_or_mirrored <| .bind (bindHelper_mirrored _ _) fun _ => ?_
    refine .bind (inner_mirrored _ _) fun (_, k) => .bind (typed_mirrored u k) fun _ => ?_
    exact .bind (inner_mirrored _ _) fun (_, e) => .bind (typed_mirrored v e) fun _ => .pure _
  | .tuple _, d => by
    unfold typed
    exact hooked_or_mirrored <| h.tuple d
  | .declared _, d => by
    unfold typed
    refine hooked_or_mirrored <| .bind .schema fun S => ?_
    split
    case h_1 => exact h.record d
    case h_2 => exact h.union d
    case h_3 => exact leaf_mirrored _ _
    case h_4 => exact .bind .direction fun _ => .throw rfl

theorem value_mirrored (d : Descriptor) : Mirrored f (value targets d) :=
  typed_mirrored h d.ty d

theorem field_mirrored (field : Field) (arg : Operand) :
    Mirrored f (Compile.field targets field arg) := by
  refine .bind .schema fun S => ?_
  cases field.param with
  | some => exact h.slot _
  | none => exact value_mirrored h _

theorem assignField_mirrored (i : Nat) (field : Field) (arg : Operand) :
    Mirrored f (assignField targets i field arg) := by
  refine .bind (field_mirrored h field arg) fun e => ?_
  cases field.default with
  | some => exact .bind (.bindName _ _) fun _ => .emit rfl
  | none => exact .emit rfl

theorem assignFields_mirrored (source : Nat → Field → Operand) (i : Nat) (fields : List Field) :
    Mirrored f (assignFields targets source i fields) := by
  induction fields generalizing i with
  | nil => exact .pure _
  | cons field fields ih => exact .bind (assignField_mirrored h _ _ _) fun _ => ih (i + 1)

theorem assignElements_mirrored (label base : String) (i : Nat) (ts : List Ty) :
    Mirrored f (assignElements targets label base i ts) := by
  induction ts generalizing i with
  | nil => exact .pure _
  | cons t ts ih =>
    exact .bind .schema fun _ => .bind (value_mirrored h _) fun _ => .bind (.emit rfl) fun _ =>
      ih (i + 1)

theorem dumpElements_mirrored (label base : String) (i : Nat) (ts : List Ty) :
    Mirrored f (dumpElements targets label base i ts) := by
  induction ts generalizing i with
  | nil => exact .pure _
  | cons t ts ih =>
    exact .bind .schema fun _ => .bind (value_mirrored h _) fun _ => .bind (.emit rfl) fun _ =>
      ih (i + 1)

theorem tuple_mirrored (d : Descriptor) : Mirrored f (tuple targets d) := by
  refine .bind .direction fun direction => ?_
  cases direction with
  | load =>
    refine .bind .schema fun S => .bind (.liftKind _) fun ts => ?_
    exact .bind (.emit rfl) fun _ => .bind (assignElements_mirrored h _ _ _ _) fun _ => .emit rfl
  | dump =>
    refine .bind .schema fun S => .bind (.liftKind _) fun ts => ?_
    exact .bind (.emit rfl) fun _ => .bind (dumpElements_mirrored h _ _ _ _) fun _ => .emit rfl

theorem alternatives_mirrored (x : String) (variants : List Variant) :
    Mirrored f (alternatives targets x variants) := by
  induction variants with
  | nil => exact .pure _
  | cons v vs ih =>
    exact .bind .schema fun _ => .bind (value_mirrored h _) fun _ => .bind ih fun _ => .pure _

theorem union_mirrored (d : Descriptor) : Mirrored f (union targets d) :=
  .bind .schema fun _ => .bind (.liftKind _) fun _ => .bind (bindHelper_mirrored _ _) fun _ =>
    .bind .freshBinder fun _ => .bind (alternatives_mirrored h _ _) fun _ => .emit rfl

theorem slot_mirrored (d : Descriptor) : Mirrored f (slot targets d) :=
  .bind .schema fun _ => .bind (value_mirrored h _) fun _ => .emit rfl

section Options

variable {o o' : Options} (ho : o.Alike f o')
include ho

omit h in
-- The check of the keys stands behind the one of the kind, and is not missed there.
theorem keyChecks_mirrors (arg : Operand) (keys : List String) {rest : Unit → CompileM Unit}
    (hrest : ∀ u, Mirrored f (rest u)) :
    Mirrors f id
      (do emit (.beginMapping arg)
          if o.denyUnknownKeys then emit (.rejectUnknownKeys arg keys)
          rest ())
      (do emit (.beginMapping arg)
          if o'.denyUnknownKeys then emit (.rejectUnknownKeys arg keys)
          rest ()) := by
  have hc := ho.checks arg keys
  cases hd : o.denyUnknownKeys <;> cases hd' : o'.denyUnknownKeys <;> simp [hd, hd'] at hc ⊢
  · exact .after (.emit rfl) hrest
  · rw [← bind_assoc]
    refine Mirrors.bind (g := id) ?_ hrest
    have hop := onBuilder_bind (Builder.emit (.beginMapping arg)) fun _ =>
      Builder.emit (.rejectUnknownKeys arg keys)
    exact hop ▸ Mirrors.onBuilder fun b => f.run_emit_emit b (ho.plain _ rfl) hc
  · exact .after (.emit rfl) fun _ => .bind (.onBuilder fun b => f.run_emit b hc) hrest

theorem dumpFields_mirrors (base : String) (positional : Bool) (i : Nat) (fields : List Field) :
    Mirrors f id (dumpFields targets base positional o.omitNull i fields)
      (dumpFields targets base positional o'.omitNull i fields) := by
  induction fields generalizing i with
  | nil => exact .pure _
  | cons field fields ih =>
    refine .after (field_mirrored h _ _) fun e => Mirrors.bind (g := id) ?_ fun _ => ih (i + 1)
    cases positional with
    | true => exact Mirrored.emit rfl
    | false => exact .onBuilder fun b => f.run_emit b (ho.inserts _ _)

theorem record_mirrors (d : Descriptor) :
    Mirrors f id (record targets d o) (record targets d o') := by
  refine .after .direction fun direction => ?_
  cases direction with
  | load =>
    refine .after .schema fun S => .after (.liftKind _) fun (fields, positional) => ?_
    have hfields (source : Nat → Field → Operand) : Mirrored f (do
        assignFields targets source 0 fields
        emit (.construct "cls")) :=
      .bind (assignFields_mirrored h _ _ _) fun _ => .emit rfl
    cases positional with
    | true => exact .after (.emit rfl) fun _ => hfields _
    | false => exact keyChecks_mirrors ho _ _ fun _ => hfields _
  | dump =>
    refine .after .schema fun S => .after (.liftKind _) fun (fields, positional) => ?_
    refine .after (.emit ?_) fun _ => ?_
    · cases positional <;> rfl
    · exact Mirrors.bind (dumpFields_mirrors h ho _ _ _ _) fun _ => Mirrored.emit rfl

end Options

theorem root_mirrored (d : Descriptor) : Mirrored f (root targets d) := by
  refine .bind .schema fun S => .read fun s s' hs => ?_
  refine .after (.hook? _) fun hook => .procedure ?_
  split
  · exact record_mirrors h hs.options _
  · exact tuple_mirrored h _
  · exact union_mirrored h _
  · exact .after (value_mirrored h _) fun _ => Mirrored.emit rfl

end Compile

def FieldCompiler.Mirrored (f : Edit) : FieldCompiler → Prop
  | plain compile => ∀ d, CompileM.Mirrored f (compile d)
  | withOptions compile => ∀ d o o', o.Alike f o' → CompileM.Mirrors f id (compile d o) (compile d o')

theorem FieldCompiler.Mirrored.run {f : Edit} {c : FieldCompiler} (h : c.Mirrored f)
    (d : Descriptor) : CompileM.Mirrored f (c.run d) := by
  cases c with
  | plain compile => exact h d
  | withOptions compile => exact .read fun s s' hs => h d _ _ hs.options

namespace Wrapper

variable {f : Edit} {w : Wrapper} (h : w.compiler.Mirrored f)
include h

theorem procedureOf_mirrored (d : Descriptor) : Mirrored f (w.procedureOf d) := by
  refine .bind .schema fun S => .bind (.lookup _) fun found => ?_
  cases found with
  | some name => exact .pure name
  | none =>
    refine Mirrors.bind .get fun c => .after .direction fun direction => ?_
    refine .after (.reserve _ _) fun name => Mirrors.bind (.nested ?_) fun (compiled, inner) => ?_
    · refine .after (.modify fun _ => rfl) fun _ => .after .param fun value => ?_
      cases w.scope with
      | external => exact h.run _
      | nested => exact .procedure <| h.run _
    · refine Mirrors.bind (.ofExcept compiled) fun _ => ?_
      exact Mirrors.bind (.onBuilder fun b => f.run_merge b inner.builder) fun _ => .pure name

theorem invoke_mirrored (d : Descriptor) : Mirrored f (w.invoke d) :=
  .bind (procedureOf_mirrored h d) fun _ => .pure _

end Wrapper

namespace WrapperSet

open Compile

-- The wrappers around compilers for targets whose calls mirror themselves.
theorem ofTargets_mirrored {f : Edit} {targets : Targets} (h : targets.Mirrored f)
    (d : Direction) :
    (ofTargets d targets).root.compiler.Mirrored f ∧ (ofTargets d targets).targets.Mirrored f where
  left := root_mirrored h
  right.record := Wrapper.invoke_mirrored fun d _ _ ho => record_mirrors h ho d
  right.union := Wrapper.invoke_mirrored (union_mirrored h)
  right.tuple := Wrapper.invoke_mirrored (tuple_mirrored h)
  right.slot := Wrapper.invoke_mirrored (slot_mirrored h)

theorem ofDepth_mirrored (f : Edit) (d : Direction) (depth : Nat) :
    (ofDepth d depth).root.compiler.Mirrored f ∧ (ofDepth d depth).targets.Mirrored f := by
  induction depth with
  | zero =>
    exact ofTargets_mirrored
      ⟨fun _ => .throw rfl, fun _ => .throw rfl, fun _ => .throw rfl, fun _ => .throw rfl⟩ d
  | succ depth ih => exact ofTargets_mirrored ih.right d

end WrapperSet

theorem entryStep_mirrored (f : Edit) (S : Schema) (d : Direction) (root : Ty) :
    Mirrored f (entryStep S d root) :=
  .bind .param fun _ => Wrapper.procedureOf_mirrored (WrapperSet.ofDepth_mirrored f d _).left _

-- What a compilation makes under settings, it makes under settings that are alike, edited.
theorem compileProcedures_edited {f : Edit} {S : Schema} {d : Direction} {hooks hooks' : Hooks}
    {options options' : Options}
    (h : Settings.Alike f ⟨S, d, hooks, options⟩ ⟨S, d, hooks', options'⟩) (root : Ty) :
    (compileProcedures S options' hooks' d root).result =
      ((compileProcedures S options hooks d root).result.mapError f.error).map fun source =>
        ⟨f.builder source.builder, source.entry⟩ := by
  have hstep := entryStep_mirrored f S d root _ _ h (.new (Text.identifier (S.name root)))
  have hnew : f.context (.new (Text.identifier (S.name root))) =
      .new (Text.identifier (S.name root)) := rfl
  rw [hnew] at hstep
  simp only [compileProcedures, ReaderT.run, EStateM.run, hstep]
  cases entryStep S d root ⟨S, d, hooks, options⟩ (.new (Text.identifier (S.name root))) <;> rfl

-- An edited compilation succeeds only where the other one does.
theorem exists_source_of_edited {f : Edit} {S : Schema} {d : Direction} {hooks hooks' : Hooks}
    {options options' : Options} {root : Ty} {edited : Source}
    (h : Settings.Alike f ⟨S, d, hooks, options⟩ ⟨S, d, hooks', options'⟩)
    (hs : (compileProcedures S options' hooks' d root).result = .ok edited) :
    ∃ source, (compileProcedures S options hooks d root).result = .ok source := by
  rw [compileProcedures_edited h root] at hs
  cases hr : (compileProcedures S options hooks d root).result with
  | ok source => exact ⟨source, rfl⟩
  | error e => simp [hr, Except.mapError, Except.map] at hs

end TreeCodec
