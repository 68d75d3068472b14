import TreeCodec.Proofs.Traversal

/-!
Compilations end.

Calls of targets are nested no deeper than there are targets, so a bound on the depth is never met.
Between two calls a type expression is taken apart, and the arguments of a type are described as far
as they have arguments themselves.
-/
namespace TreeCodec

namespace CompileM

variable {α β : Type}

-- `x` was cut off because it went too deep, or it is `y`.
def Upto (x y : CompileM α) : Prop :=
  ∀ s c, (∃ c', x s c = .error .tooDeep c') ∨ x s c = y s c

namespace Upto

theorem refl (x : CompileM α) : Upto x x :=
  fun _ _ => .inr rfl

theorem tooDeep (y : CompileM α) : Upto (throw .tooDeep) y :=
  fun _ c => .inl ⟨c, rfl⟩

theorem bind {x y : CompileM α} {f g : α → CompileM β} (h : Upto x y) (hf : ∀ a, Upto (f a) (g a)) :
    Upto (x >>= f) (y >>= g) := by
  intro s c
  show (∃ c', EStateM.bind (x s) (fun a => f a s) c = .error .tooDeep c') ∨
    EStateM.bind (x s) (fun a => f a s) c = EStateM.bind (y s) (fun a => g a s) c
  unfold EStateM.bind
  rcases h s c with ⟨c', hx⟩ | hx
  · exact .inl ⟨c', by rw [hx]⟩
  · rw [hx]
    cases y s c with
    | ok a c => exact hf a s c
    | error e c => exact .inr rfl

theorem bind_left {x y : CompileM α} (h : Upto x y) (f : α → CompileM β) :
    Upto (x >>= f) (y >>= f) :=
  h.bind fun a => .refl (f a)

theorem bind_right (x : CompileM α) {f g : α → CompileM β} (h : ∀ a, Upto (f a) (g a)) :
    Upto (x >>= f) (x >>= g) :=
  (refl x).bind h

-- A failure that is kept is passed on when all it can come to is this failure.
theorem attempt {x y : CompileM α} (h : Upto x y) {f : Except CodegenError α → CompileM β}
    (hf : ∀ s c, ∃ c', f (.error .tooDeep) s c = .error .tooDeep c') :
    Upto (attempt x >>= f) (attempt y >>= f) := by
  intro s c
  show (∃ c', EStateM.bind (CompileM.attempt x s) (fun a => f a s) c = .error .tooDeep c') ∨
    EStateM.bind (CompileM.attempt x s) (fun a => f a s) c =
      EStateM.bind (CompileM.attempt y s) (fun a => f a s) c
  unfold EStateM.bind CompileM.attempt
  rcases h s c with ⟨c', hx⟩ | hx
  · rw [hx]
    exact .inl (hf s c')
  · exact .inr (by rw [hx])

theorem nested {x y : CompileM α} (h : Upto x y) (displayName name : String)
    {f : Except CodegenError α × Context → CompileM β}
    (hf : ∀ inner s c, ∃ c', f (.error .tooDeep, inner) s c = .error .tooDeep c') :
    Upto (nested displayName name x >>= f) (nested displayName name y >>= f) := by
  intro s c
  show (∃ c', EStateM.bind (CompileM.nested displayName name x s) (fun a => f a s) c =
      .error .tooDeep c') ∨
    EStateM.bind (CompileM.nested displayName name x s) (fun a => f a s) c =
      EStateM.bind (CompileM.nested displayName name y s) (fun a => f a s) c
  unfold EStateM.bind CompileM.nested
  rcases h s (c.child displayName name) with ⟨c', hx⟩ | hx
  · rw [hx]
    exact .inl (hf c' s _)
  · exact .inr (by rw [hx])

theorem procedure {x y : CompileM Unit} (h : Upto x y) : Upto (procedure x) (procedure y) := by
  refine .bind_right _ fun c => ?_
  cases c.procedureName with
  | none => exact .refl _
  | some name =>
    refine .bind_right _ fun _ => .bind_right _ fun _ => .bind_right _ fun _ => h.attempt ?_
    intro s c
    show ∃ c', EStateM.bind (CompileM.attempt (onBuilder Builder.finish) s) _ c = _
    unfold EStateM.bind CompileM.attempt
    cases onBuilder Builder.finish s c <;> exact ⟨_, rfl⟩

end Upto
end CompileM

open CompileM

-- Calls of targets that are cut off, or that are those of `T'`.
structure Targets.Upto (T T' : Targets) : Prop where
  record : ∀ d, CompileM.Upto (T.record d) (T'.record d)
  union  : ∀ d, CompileM.Upto (T.union d) (T'.union d)
  tuple  : ∀ d, CompileM.Upto (T.tuple d) (T'.tuple d)
  slot   : ∀ d, CompileM.Upto (T.slot d) (T'.slot d)

section Compilers

open Compile

variable {T T' : Targets}

theorem typed_upto (h : T.Upto T') : ∀ (t : Ty) (d : Descriptor), Upto (typed T t d) (typed T' t d)
  | .scalar _, d => by
    unfold typed
    exact .refl _
  | .dynamic, d => by
    unfold typed
    exact .refl _
  | .optional u, d | .boxed u, d | .list _ u, d => by
    unfold typed
    refine .bind_right _ fun e => ?_
    cases e with
    | some e => exact .refl _
    | none => exact .bind_right _ fun _ => .bind_right _ fun _ => .bind_left (typed_upto h u _) _
  | .map _ u v, d => by
    unfold typed
    refine .bind_right _ fun e => ?_
    cases e with
    | some e => exact .refl _
    | none =>
      refine .bind_right _ fun _ => .bind_right _ fun _ => .bind (typed_upto h u _) fun _ => ?_
      exact .bind_right _ fun _ => .bind_left (typed_upto h v _) _
  | .tuple ts, d => by
    unfold typed
    refine .bind_right _ fun e => ?_
    cases e with
    | some e => exact .refl _
    | none => exact h.tuple d
  | .declared id, d => by
    unfold typed
    refine .bind_right _ fun e => ?_
    cases e with
    | some e => exact .refl _
    | none =>
      refine .bind_right _ fun S => ?_
      cases S.kind (.declared id) <;> first | exact h.record d | exact h.union d | exact .refl _

theorem value_upto (h : T.Upto T') (d : Descriptor) : Upto (value T d) (value T' d) :=
  typed_upto h d.ty d

theorem field_upto (h : T.Upto T') (f : Field) (arg : Operand) :
    Upto (field T f arg) (field T' f arg) := by
  refine .bind_right _ fun S => ?_
  cases f.param with
  | none => exact value_upto h _
  | some i => exact h.slot _

theorem assignFields_upto (h : T.Upto T') (source : Nat → Field → Operand) (fs : List Field)
    (i : Nat) : Upto (assignFields T source i fs) (assignFields T' source i fs) := by
  induction fs generalizing i with
  | nil => exact .refl _
  | cons f fs ih => exact .bind (.bind_left (field_upto h f _) _) fun _ => ih (i + 1)

theorem assignElements_upto (h : T.Upto T') (label base : String) (ts : List Ty) (i : Nat) :
    Upto (assignElements T label base i ts) (assignElements T' label base i ts) := by
  induction ts generalizing i with
  | nil => exact .refl _
  | cons t ts ih =>
    exact .bind_right _ fun _ => .bind (value_upto h _) fun _ => .bind_right _ fun _ => ih (i + 1)

theorem dumpFields_upto (h : T.Upto T') (base : String) (positional omitNull : Bool)
    (fs : List Field) (i : Nat) :
    Upto (dumpFields T base positional omitNull i fs)
      (dumpFields T' base positional omitNull i fs) := by
  induction fs generalizing i with
  | nil => exact .refl _
  | cons f fs ih => exact .bind (field_upto h f _) fun _ => .bind_right _ fun _ => ih (i + 1)

theorem dumpElements_upto (h : T.Upto T') (label base : String) (ts : List Ty) (i : Nat) :
    Upto (dumpElements T label base i ts) (dumpElements T' label base i ts) := by
  induction ts generalizing i with
  | nil => exact .refl _
  | cons t ts ih =>
    exact .bind_right _ fun _ => .bind (value_upto h _) fun _ => .bind_right _ fun _ => ih (i + 1)

theorem alternatives_upto (h : T.Upto T') (x : String) (variants : List Variant) :
    Upto (alternatives T x variants) (alternatives T' x variants) := by
  induction variants with
  | nil => exact .refl _
  | cons v vs ih => exact .bind_right _ fun _ => .bind (value_upto h _) fun _ => .bind_left ih _

theorem record_upto (h : T.Upto T') (d : Descriptor) (options : Options) :
    Upto (record T d options) (record T' d options) := by
  refine .bind_right _ fun direction => ?_
  cases direction with
  | load =>
    refine .bind_right _ fun _ => .bind_right _ fun ⟨fields, positional⟩ => ?_
    cases positional with
    | true => exact .bind_right _ fun _ => .bind_left (assignFields_upto h _ _ _) _
    | false =>
      refine .bind_right _ fun _ => ?_
      cases options.denyUnknownKeys with
      | true => exact .bind_right _ fun _ => .bind_left (assignFields_upto h _ _ _) _
      | false => exact .bind_left (assignFields_upto h _ _ _) _
  | dump =>
    refine .bind_right _ fun _ => .bind_right _ fun _ => .bind_right _ fun _ => ?_
    exact .bind_left (dumpFields_upto h _ _ _ _ _) _

theorem tuple_upto (h : T.Upto T') (d : Descriptor) : Upto (tuple T d) (tuple T' d) := by
  refine .bind_right _ fun direction => ?_
  cases direction with
  | load =>
    refine .bind_right _ fun _ => .bind_right _ fun _ => .bind_right _ fun _ => ?_
    exact .bind_left (assignElements_upto h _ _ _ _) _
  | dump =>
    refine .bind_right _ fun _ => .bind_right _ fun _ => .bind_right _ fun _ => ?_
    exact .bind_left (dumpElements_upto h _ _ _ _) _

theorem union_upto (h : T.Upto T') (d : Descriptor) : Upto (union T d) (union T' d) := by
  refine .bind_right _ fun _ => .bind_right _ fun _ => .bind_right _ fun _ => ?_
  exact .bind_right _ fun _ => .bind_left (alternatives_upto h _ _) _

theorem slot_upto (h : T.Upto T') (d : Descriptor) : Upto (slot T d) (slot T' d) :=
  .bind_right _ fun _ => .bind_left (value_upto h _) _

theorem root_upto (h : T.Upto T') (d : Descriptor) :
    Upto (Compile.root T d) (Compile.root T' d) := by
  refine .bind_right _ fun S => .bind_right _ fun s => .bind_right _ fun hook => .procedure ?_
  have hvalue := (value_upto h d).bind_left fun e => emit (.returnValue e)
  cases S.kind d.ty <;> cases hook <;>
    first
    | exact record_upto h d _
    | exact tuple_upto h d
    | exact union_upto h d
    | exact hvalue

end Compilers

section Depth

variable {role : String} {compiler compiler' : FieldCompiler} {mode : GuardMode}
  {scope : WrapperScope}

-- A wrapper whose compiler is cut off is cut off as well.
theorem procedureOf_upto (h : ∀ d, CompileM.Upto (compiler.run d) (compiler'.run d))
    (d : Descriptor) :
    CompileM.Upto (Wrapper.procedureOf ⟨role, compiler, mode, scope⟩ d)
      (Wrapper.procedureOf ⟨role, compiler', mode, scope⟩ d) := by
  refine .bind_right _ fun S => .bind_right _ fun found => ?_
  cases found with
  | some name => exact .refl _
  | none =>
    refine .bind_right _ fun c => .bind_right _ fun direction => .bind_right _ fun name => ?_
    refine .nested (.bind_right _ fun _ => .bind_right _ fun param => ?_) _ _ ?_
    · cases scope with
      | nested => exact (h _).procedure
      | external _ => exact h _
    · exact fun inner s c => ⟨c, rfl⟩

theorem invoke_upto (h : ∀ d, CompileM.Upto (compiler.run d) (compiler'.run d)) (d : Descriptor) :
    CompileM.Upto (Wrapper.invoke ⟨role, compiler, mode, scope⟩ d)
      (Wrapper.invoke ⟨role, compiler', mode, scope⟩ d) :=
  .bind_left (procedureOf_upto h d) _

theorem ofTargets_upto {T T' : Targets} (h : T.Upto T') (d : Direction) :
    (WrapperSet.ofTargets d T).targets.Upto (WrapperSet.ofTargets d T').targets where
  record := invoke_upto fun t => .bind_right _ fun s => record_upto h t s.options
  union  := invoke_upto <| union_upto h
  tuple  := invoke_upto <| tuple_upto h
  slot   := invoke_upto <| slot_upto h

-- Without any depth left every call is cut off.
theorem exists_ofDepth_zero (d : Direction) :
    ∃ T : Targets, WrapperSet.ofDepth d 0 = WrapperSet.ofTargets d T ∧ ∀ T', T.Upto T' := by
  refine ⟨_, rfl, fun T' => ?_⟩
  constructor <;> exact fun _ => .tooDeep _

theorem exists_ofDepth_upto (d : Direction) {n m : Nat} (h : n ≤ m) :
    ∃ T T' : Targets, WrapperSet.ofDepth d n = WrapperSet.ofTargets d T ∧
      WrapperSet.ofDepth d m = WrapperSet.ofTargets d T' ∧ T.Upto T' := by
  induction n generalizing m with
  | zero =>
    have ⟨T, hT, hupto⟩ := exists_ofDepth_zero d
    cases m with
    | zero => exact ⟨T, T, hT, hT, hupto T⟩
    | succ m => exact ⟨T, _, hT, rfl, hupto _⟩
  | succ n ih =>
    cases m with
    | zero => nomatch h
    | succ m =>
      have ⟨T, T', hn, hm, hupto⟩ := ih (Nat.le_of_succ_le_succ h)
      refine ⟨_, _, rfl, rfl, ?_⟩
      rw [hn, hm]
      exact ofTargets_upto hupto d

-- A lower bound on the depth at most cuts a compilation off.
theorem entryWithin_upto (S : Schema) (d : Direction) {n m : Nat} (h : n ≤ m) (root : Ty) :
    CompileM.Upto (entryWithin S d n root) (entryWithin S d m root) := by
  have ⟨T, T', hn, hm, hupto⟩ := exists_ofDepth_upto d h
  refine .bind_right _ fun param => ?_
  rw [hn, hm]
  have hroot : ∀ d, CompileM.Upto ((FieldCompiler.plain (Compile.root T)).run d)
      ((FieldCompiler.plain (Compile.root T')).run d) := root_upto hupto
  exact procedureOf_upto hroot _

end Depth

-- All bounds on the depth that are at least the number of targets give the same compilation.
theorem entryWithin_eq {s : Settings} {root : Ty} {targets : List GuardKey}
    (hk : ∀ key, IsTarget s root key → key ∈ targets) {n m : Nat} (hn : targets.length ≤ n)
    (h : n ≤ m) (record : String) :
    entryWithin s.schema s.direction n root s (.new record) =
      entryWithin s.schema s.direction m root s (.new record) := by
  have hsat := entryWithin_sat hk hn record
  refine (entryWithin_upto s.schema s.direction h root s (.new record)).resolve_left ?_
  intro ⟨c, hr⟩
  rcases hsat.error hr with hi | ⟨_, _, he⟩
  · exact hi
  · nomatch he

/-! ## Between calls -/

section Inline

open Compile

-- The expression for a value, where the values within it are left to `self`.
def typedStep (T : Targets) (self : Ty → Descriptor → CompileM Expr) (t : Ty) (d : Descriptor) :
    CompileM Expr := do
  if let some e ← hooked t d.value then return e
  match t with
  | .scalar _ | .dynamic => leaf t d.value
  | .optional u =>
    let helper ← bindHelper "optional" t
    let (binder, e) ← inner u d
    return .optional helper d.value binder (← self u e)
  | .boxed u =>
    let helper ← bindHelper "boxed" t
    let (binder, e) ← inner u d
    return .boxed helper d.value binder (← self u e)
  | .list _ u =>
    let helper ← bindHelper "list" t
    let (binder, e) ← inner u d
    return .list helper d.value binder (← self u e)
  | .map _ u v =>
    let helper ← bindHelper "map" t
    let (keyBinder, k) ← inner u d
    let key ← self u k
    let (valueBinder, e) ← inner v d
    let value ← self v e
    return .map helper d.value keyBinder key valueBinder value
  | .tuple _ => T.tuple d
  | .declared _ =>
    let S ← schema
    match S.kind t with
    | .record => T.record d
    | .union => T.union d
    | .dynamic => leaf t d.value
    | _ => throw (.unsupported (S.path t) (← direction))

theorem typed_eq (T : Targets) (t : Ty) (d : Descriptor) :
    typed T t d = typedStep T (typed T) t d := by
  cases t <;> (unfold typed; rfl)

-- Only expressions with fewer parts are left over.
theorem typedStep_congr (T : Targets) {self self' : Ty → Descriptor → CompileM Expr} {t : Ty}
    (h : ∀ u : Ty, u.parts.length < t.parts.length → self u = self' u) :
    typedStep T self t = typedStep T self' t := by
  cases t with
  | scalar | dynamic | tuple | declared => rfl
  | optional u | boxed u | list _ u =>
    have hu := h u (by simp [Ty.parts])
    funext d
    simp only [typedStep, hu]
  | map k u v =>
    have hu := h u (by simp only [Ty.parts, List.length_cons, List.length_append]; omega)
    have hv := h v (by simp only [Ty.parts, List.length_cons, List.length_append]; omega)
    funext d
    simp only [typedStep, hu, hv]

end Inline

/-! ## Descriptors -/

-- The type arguments of a described type, and theirs, end within `n` levels.
def Descriptor.EndsWithin (S : Schema) : Nat → Descriptor → Prop
  | 0, _ => False
  | n + 1, d => ∀ a ∈ d.arguments S, EndsWithin S n a

theorem Descriptor.EndsWithin.mono {S : Schema} {n m : Nat} {d : Descriptor}
    (h : d.EndsWithin S n) (hm : n ≤ m) : d.EndsWithin S m := by
  induction n generalizing m d with
  | zero => exact absurd h id
  | succ n ih =>
    cases m with
    | zero => nomatch hm
    | succ m => exact fun a ha => ih (h a ha) (Nat.le_of_succ_le_succ hm)

-- A type is an argument of another one.
def Schema.Argument (S : Schema) (u t : Ty) : Prop :=
  u ∈ (S.generics t).map Prod.snd

namespace Schema

variable {S : Schema}

mutual

-- The arguments of built-in types are within them, so only declarations can have endless ones.
theorem acc_argument (h : ∀ id, Acc S.Argument (.declared id)) : ∀ t : Ty, Acc S.Argument t
  | .scalar _ | .dynamic => ⟨_, fun _ hu => absurd hu (by simp [Argument, generics])⟩
  | .declared id => h id
  | .optional u | .boxed u | .list _ u =>
    ⟨_, fun _ hv => List.mem_singleton.mp hv ▸ acc_argument h u⟩
  | .map _ u v => by
    refine ⟨_, fun w hw => ?_⟩
    rcases List.mem_cons.mp hw with hw | hw
    · exact hw ▸ acc_argument h u
    · exact List.mem_singleton.mp hw ▸ acc_argument h v
  | .tuple ts => by
    refine ⟨_, fun u hu => acc_arguments h ts u <| List.mem_iff_getElem.mpr ?_⟩
    simpa [Argument, generics] using hu

theorem acc_arguments (h : ∀ id, Acc S.Argument (.declared id)) :
    ∀ ts : List Ty, ∀ t ∈ ts, Acc S.Argument t
  | [] => nofun
  | t :: ts => List.forall_mem_cons.mpr ⟨acc_argument h t, acc_arguments h ts⟩

end

end Schema

theorem Descriptor.exists_endsWithin {S : Schema} {t : Ty} (h : Acc S.Argument t) :
    ∃ n, ∀ d : Descriptor, d.ty = t → d.given = none → d.EndsWithin S n := by
  induction h with
  | intro t _ ih =>
    have hall : ∀ us : List Ty, (∀ u ∈ us, S.Argument u t) →
        ∃ n, ∀ u ∈ us, ∀ d : Descriptor, d.ty = u → d.given = none → d.EndsWithin S n := by
      intro us hus
      induction us with
      | nil => exact ⟨0, nofun⟩
      | cons u us ihs =>
        have ⟨hu, hus⟩ := List.forall_mem_cons.mp hus
        have ⟨n, hn⟩ := ih u hu
        have ⟨m, hm⟩ := ihs hus
        refine ⟨max n m, List.forall_mem_cons.mpr ⟨fun d hd hg => ?_, fun u hu d hd hg => ?_⟩⟩
        · exact (hn d hd hg).mono (Nat.le_max_left ..)
        · exact (hm u hu d hd hg).mono (Nat.le_max_right ..)
    have ⟨n, hn⟩ := hall ((S.generics t).map Prod.snd) fun _ hu => hu
    refine ⟨n + 1, fun d hd hg a ha => ?_⟩
    simp only [arguments, hg, hd, List.mem_mapIdx] at ha
    obtain ⟨i, hi, rfl⟩ := ha
    exact hn _ (List.mem_map_of_mem (List.getElem_mem hi)) _ rfl rfl

-- Every compilation ends. Calls of targets are nested at most as deep as there are targets,
-- whatever deeper nesting is allowed; between calls only smaller type expressions are converted;
-- and the types that are described have finitely deep arguments if their lists of generics are
-- well founded.
theorem compileProcedures_ends {S : Schema} {options : Options} {hooks : Hooks} {d : Direction}
    {root : Ty} (hg : ∀ t, Reached ⟨S, d, hooks, options⟩ root t → Acc S.Argument t) :
    (∃ targets : List GuardKey, targets.Nodup ∧
      (∀ key, key ∈ targets ↔ IsTarget ⟨S, d, hooks, options⟩ root key) ∧
      ∀ n, targets.length ≤ n → ∀ record,
        entryWithin S d n root ⟨S, d, hooks, options⟩ (.new record) =
          entryStep S d root ⟨S, d, hooks, options⟩ (.new record)) ∧
    (compileProcedures S options hooks d root).result ≠ .error .tooDeep ∧
    (∀ T t e, Compile.typed T t e = typedStep T (Compile.typed T) t e) ∧
    (∀ T self self' t, (∀ u : Ty, u.parts.length < t.parts.length → self u = self' u) →
      typedStep T self t = typedStep T self' t) ∧
    ∀ t, Reached ⟨S, d, hooks, options⟩ root t → ∀ arg,
      ∃ n, (Descriptor.new S t arg).EndsWithin S n := by
  refine ⟨?calls, ?depth, typed_eq, fun T _ _ _ => typedStep_congr T, ?descriptors⟩
  case calls =>
    have ⟨targets, hnodup, hk, hlen⟩ := exists_targets ⟨S, d, hooks, options⟩ root
    refine ⟨targets, hnodup, hk, fun n hn record => ?_⟩
    have hk' := fun key => (hk key).mpr
    rw [entryStep_eq]
    rcases Nat.le_total n (2 * (WrapperSet.reachable S [root]).length + 1) with hle | hle
    · exact entryWithin_eq hk' hn hle record
    · exact (entryWithin_eq hk' (Nat.le_succ_of_le hlen) hle record).symm
  case depth =>
    intro h
    have ⟨_, _, he⟩ := compileProcedures_stopped h
    nomatch he
  case descriptors =>
    intro t ht arg
    have ⟨n, hn⟩ := Descriptor.exists_endsWithin (hg t ht)
    exact ⟨n, hn _ rfl rfl⟩

theorem acc_argument_orchard (id : String) : Acc orchard.Argument (.declared id) := by
  have hscalar : ∀ k, Acc orchard.Argument (.scalar k) :=
    fun k => ⟨_, fun u hu => absurd hu (by simp [Schema.Argument, Schema.generics])⟩
  refine ⟨_, fun u hu => ?_⟩
  have hu : u = .scalar (.int .u8) := by
    by_cases ht : "Tree" = id <;> by_cases hs : "Shape" = id <;>
      simp_all [Schema.Argument, Schema.generics, Schema.declaration?, orchard, Keyed.get?]
  exact hu ▸ hscalar _

theorem compileProcedures_ends_orchard :
    (∀ t, Reached ⟨orchard, .load, {}, {}⟩ (.declared "Tree") t → Acc orchard.Argument t) ∧
      (compileProcedures orchard {} {} .load (.declared "Tree")).result ≠ .error .tooDeep :=
  have hg : ∀ t, Acc orchard.Argument t := Schema.acc_argument acc_argument_orchard
  ⟨fun t _ => hg t, (compileProcedures_ends fun t _ => hg t).right.left⟩

end TreeCodec
