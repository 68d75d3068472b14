import TreeCodec.Proofs.Visits

/-!
The compilers meet types in the order of the walk. The targets that they reserve are those that the
walk enters, and a foreign type stops them where it stops the walk.
-/
namespace TreeCodec

open CompileM

-- Calls of targets go through the places that they are called for.
structure Targets.Visit (T : Targets) (s : Settings) (root : Ty) (targets : List GuardKey)
    (n : Nat) : Prop where
  record : ∀ t d c, d.ty = t → Pending targets n c → Shown s root (.value t) → s.hook? t = none →
    s.schema.kind t = .record → Visits s targets n [.value t] c (T.record d) fun _ => True
  union  : ∀ t d c, d.ty = t → Pending targets n c → Shown s root (.value t) → s.hook? t = none →
    s.schema.kind t = .union → Visits s targets n [.value t] c (T.union d) fun _ => True
  tuple  : ∀ t d c, d.ty = t → Pending targets n c → Shown s root (.value t) → s.hook? t = none →
    s.schema.kind t = .tuple → Visits s targets n [.value t] c (T.tuple d) fun _ => True
  slot   : ∀ d d' c, Pending targets n c → Shown s root (.slot d'.ty) → d.given = some [d'] →
    Visits s targets n [.slot d'.ty] c (T.slot d) fun _ => True

section Inline

open Compile

variable {s : Settings} {root : Ty} {targets : List GuardKey} {n : Nat} {T : Targets} {c : Context}

section InPlace

variable {α : Type} {t : Ty} {step : CompileM α} {post : α → Prop}

theorem Visits.ofInner (ht : (Place.value t).target? s = none)
    (hf : s.hook? t = none → s.schema.shape t ≠ .foreign)
    (h : Visits s targets n ((s.inner t).map .value) c step post) :
    Visits s targets n [.value t] c step post := by
  refine (Sat.imp h ?_).imp_fail ?_
  · exact fun a c' ⟨ha, hw, hc⟩ => ⟨ha, .inPlace ht hf (by rwa [List.append_nil]), hc⟩
  · exact fun e he => Stopped.imp he fun _ hw => .inPlace ht hf (by rwa [List.append_nil])

-- A value that is converted in place is gone through as the values within it.
theorem Visits.inPlace (hh : s.hook? t = none) (hp : ¬s.schema.HasProcedure t)
    (hf : s.schema.shape t ≠ .foreign)
    (h : Visits s targets n ((s.schema.within t).map .value) c step post) :
    Visits s targets n [.value t] c step post := by
  refine .ofInner (by simp [Place.target?, hp]) (fun _ => hf) ?_
  simpa [Settings.inner, hh] using h

-- A hook hides what is in a type.
theorem Visits.hidden {b : Binding} (hh : s.hook? t = some b)
    (h : Visits s targets n [] c step post) : Visits s targets n [.value t] c step post := by
  refine .ofInner (by simp [Place.target?, hh]) (by simp [hh]) ?_
  simpa [Settings.inner, hh] using h

end InPlace

theorem hooked_or_visits {t : Ty} {arg : Operand} {rest : CompileM Expr} (hc : Pending targets n c)
    (h : ∀ c, Pending targets n c → s.hook? t = none →
      Visits s targets n [.value t] c rest fun _ => True) :
    Visits s targets n [.value t] c (do if let some e ← hooked t arg then return e else rest)
      fun _ => True := by
  refine Visits.quiet_bind (hooked_quiet hc t arg) fun found c' hfound hc' => ?_
  cases found with
  | none => exact h c' hc' (by simpa using hfound.symm)
  | some e =>
    have ⟨b, hb⟩ := Option.isSome_iff_exists.mp hfound.symm
    exact .hidden hb <| .pure hc' trivial

theorem nested_visits {t u : Ty} {d : Descriptor} {kind : String}
    {rest : Descriptor → CompileM Expr} {wrap : String → String → Expr → Expr}
    (hc : Pending targets n c)
    (hrest : ∀ d c, Pending targets n c → d.ty = u →
      Visits s targets n [.value u] c (rest d) fun _ => True) :
    Visits s targets n [.value u] c (do
      let helper ← bindHelper kind t
      let (binder, e) ← inner u d
      return wrap helper binder (← rest e)) fun _ => True := by
  refine Visits.quiet_bind (bindHelper_quiet hc kind t) fun _ c₁ _ hc₁ => ?_
  refine Visits.quiet_bind (inner_quiet hc₁ u d) fun ⟨_, e⟩ c₂ he hc₂ => ?_
  exact .bind_quiet (hrest e c₂ hc₂ he) fun _ _ _ hc₃ => .pure hc₃ trivial

theorem typed_visits (hT : T.Visit s root targets n) :
    ∀ (t : Ty) (d : Descriptor) (c : Context), Pending targets n c → d.ty = t →
      Shown s root (.value t) → Visits s targets n [.value t] c (typed T t d) fun _ => True
  | .scalar k, d, c, hc, _, _ => by
    unfold typed
    refine hooked_or_visits hc fun c hc hh => .inPlace hh id (by simp [Schema.shape]) ?_
    exact leaf_quiet hc _ _
  | .dynamic, d, c, hc, _, _ => by
    unfold typed
    refine hooked_or_visits hc fun c hc hh => .inPlace hh id (by simp [Schema.shape]) ?_
    exact leaf_quiet hc _ _
  | .optional u, d, c, hc, _, hs => by
    unfold typed
    refine hooked_or_visits hc fun c hc hh => .inPlace hh id (by simp [Schema.shape]) ?_
    refine nested_visits hc fun d c hc hd => ?_
    exact typed_visits hT u d c hc hd <| hs.within hh <| List.mem_singleton.mpr rfl
  | .boxed u, d, c, hc, _, hs => by
    unfold typed
    refine hooked_or_visits hc fun c hc hh => .inPlace hh id (by simp [Schema.shape]) ?_
    refine nested_visits hc fun d c hc hd => ?_
    exact typed_visits hT u d c hc hd <| hs.within hh <| List.mem_singleton.mpr rfl
  | .list k u, d, c, hc, _, hs => by
    unfold typed
    refine hooked_or_visits hc fun c hc hh => .inPlace hh id (by simp [Schema.shape]) ?_
    refine nested_visits hc fun d c hc hd => ?_
    exact typed_visits hT u d c hc hd <| hs.within hh <| List.mem_singleton.mpr rfl
  | .map k u v, d, c, hc, _, hs => by
    unfold typed
    refine hooked_or_visits hc fun c hc hh => .inPlace hh id (by simp [Schema.shape]) ?_
    have hu : Shown s root (.value u) := hs.within hh <| by simp [Schema.within, Schema.shape]
    have hv : Shown s root (.value v) := hs.within hh <| by simp [Schema.within, Schema.shape]
    refine Visits.quiet_bind (bindHelper_quiet hc "map" _) fun _ c hc' hc => ?_
    refine Visits.quiet_bind (inner_quiet hc u d) ?_
    rintro ⟨_, dk⟩ c hk hc
    refine Visits.cons (typed_visits hT u dk c hc hk hu) fun _ c _ hc => ?_
    refine Visits.quiet_bind (inner_quiet hc v d) ?_
    rintro ⟨_, dv⟩ c hk hc
    exact .bind_quiet (typed_visits hT v dv c hc hk hv) fun _ _ _ hc => .pure hc trivial
  | .tuple ts, d, c, hc, hd, hs => by
    unfold typed
    exact hooked_or_visits hc fun c hc hh => hT.tuple _ d c hd hc hs hh rfl
  | .declared id, d, c, hc, hd, hs => by
    unfold typed
    refine hooked_or_visits hc fun c hc hh => .schema ?_
    split
    case h_1 hk => exact hT.record _ d c hd hc hs hh hk
    case h_2 hk => exact hT.union _ d c hd hc hs hh hk
    case h_3 hk =>
      have hshape := Schema.shape_of_kind_dynamic hk
      refine .inPlace hh (by simp [Schema.HasProcedure, hshape]) (by simp [hshape]) ?_
      simpa [Schema.within, hshape] using leaf_quiet hc _ _
    case h_4 h₁ h₂ h₃ =>
      refine .direction <| Sat.throw <| .inr ⟨_, ?_, rfl⟩
      exact .refused hh <| Schema.shape_declared_eq_foreign h₁ h₂ h₃

theorem value_visits (hT : T.Visit s root targets n) {t : Ty} {d : Descriptor}
    (hc : Pending targets n c) (hd : d.ty = t) (hs : Shown s root (.value t)) :
    Visits s targets n [.value t] c (value T d) fun _ => True := by
  subst hd
  exact typed_visits hT _ d c hc rfl hs

theorem field_visits (hT : T.Visit s root targets n) {f : Field} {arg : Operand}
    (hc : Pending targets n c) (hs : Shown s root (.ofField f)) :
    Visits s targets n [.ofField f] c (field T f arg) fun _ => True := by
  refine .schema ?_
  cases hp : f.param with
  | none =>
    have he : Place.ofField f = .value f.ty := by simp [Place.ofField, hp]
    rw [he] at hs ⊢
    exact value_visits hT hc rfl hs
  | some i =>
    have he : Place.ofField f = .slot f.ty := by simp [Place.ofField, hp]
    rw [he] at hs ⊢
    exact hT.slot _ ((Descriptor.new s.schema f.ty arg).labelled f.name) c hc hs rfl

theorem assignField_visits (hT : T.Visit s root targets n) (i : Nat) {f : Field} {arg : Operand}
    (hc : Pending targets n c) (hs : Shown s root (.ofField f)) :
    Visits s targets n [.ofField f] c (assignField T i f arg) fun _ => True := by
  refine .bind_quiet (field_visits hT hc hs) fun e c _ hc => ?_
  cases f.default with
  | none => exact emit_quiet hc _
  | some v => exact .quiet_bind (bind_quiet hc _ _) fun _ c _ hc => emit_quiet hc _

theorem assignFields_visits (hT : T.Visit s root targets n) (source : Nat → Field → Operand)
    {fs : List Field} (i : Nat) (hc : Pending targets n c)
    (hs : ∀ f ∈ fs, Shown s root (.ofField f)) :
    Visits s targets n (fs.map .ofField) c (assignFields T source i fs) fun _ => True := by
  induction fs generalizing i c with
  | nil => exact .pure hc trivial
  | cons f fs ih =>
    have ⟨hf, hs⟩ := List.forall_mem_cons.mp hs
    exact Visits.cons (assignField_visits hT i hc hf) fun _ c _ hc => ih (i + 1) hc hs

theorem assignElements_visits (hT : T.Visit s root targets n) (label base : String) {ts : List Ty}
    (i : Nat) (hc : Pending targets n c) (hs : ∀ t ∈ ts, Shown s root (.value t)) :
    Visits s targets n (ts.map .value) c (assignElements T label base i ts) fun _ => True := by
  induction ts generalizing i c with
  | nil => exact .pure hc trivial
  | cons t ts ih =>
    have ⟨ht, hs⟩ := List.forall_mem_cons.mp hs
    refine .schema <| Visits.cons (value_visits hT hc rfl ht) fun e c _ hc => ?_
    exact Visits.quiet_bind (emit_quiet hc _) fun _ c _ hc => ih (i + 1) hc hs

theorem dumpFields_visits (hT : T.Visit s root targets n) (base : String)
    (positional omitNull : Bool) {fs : List Field} (i : Nat) (hc : Pending targets n c)
    (hs : ∀ f ∈ fs, Shown s root (.ofField f)) :
    Visits s targets n (fs.map .ofField) c (dumpFields T base positional omitNull i fs)
      fun _ => True := by
  induction fs generalizing i c with
  | nil => exact .pure hc trivial
  | cons f fs ih =>
    have ⟨hf, hs⟩ := List.forall_mem_cons.mp hs
    refine Visits.cons (field_visits hT hc hf) fun e c _ hc => ?_
    exact Visits.quiet_bind (emit_quiet hc _) fun _ c _ hc => ih (i + 1) hc hs

theorem dumpElements_visits (hT : T.Visit s root targets n) (label base : String) {ts : List Ty}
    (i : Nat) (hc : Pending targets n c) (hs : ∀ t ∈ ts, Shown s root (.value t)) :
    Visits s targets n (ts.map .value) c (dumpElements T label base i ts) fun _ => True := by
  induction ts generalizing i c with
  | nil => exact .pure hc trivial
  | cons t ts ih =>
    have ⟨ht, hs⟩ := List.forall_mem_cons.mp hs
    refine .schema <| Visits.cons (value_visits hT hc rfl ht) fun e c _ hc => ?_
    exact Visits.quiet_bind (emit_quiet hc _) fun _ c _ hc => ih (i + 1) hc hs

theorem alternatives_visits (hT : T.Visit s root targets n) (x : String) {variants : List Variant}
    (hc : Pending targets n c) (hs : ∀ v ∈ variants, Shown s root (.value v.ty)) :
    Visits s targets n (variants.map fun v => .value v.ty) c (alternatives T x variants)
      fun _ => True := by
  induction variants generalizing c with
  | nil => exact .pure hc trivial
  | cons v vs ih =>
    have ⟨hv, hs⟩ := List.forall_mem_cons.mp hs
    refine .schema <| Visits.cons (value_visits hT hc rfl hv) fun e c _ hc => ?_
    exact .bind_quiet (ih hc hs) fun _ _ _ hc => .pure hc trivial

end Inline

/-! ## Bodies -/

section Bodies

open Compile

variable {s : Settings} {root : Ty} {targets : List GuardKey} {n : Nat} {T : Targets} {c : Context}
  {t : Ty} {d : Descriptor}

theorem loadRecord_visits (hT : T.Visit s root targets n) (options : Options)
    (hc : Pending targets n c) (hs : Shown s root (.value d.ty)) (hh : s.hook? d.ty = none) :
    Visits s targets n ((GuardKey.origin d.ty).places s) c (loadRecord T d options)
      fun _ => True := by
  refine .schema <| .liftKind fun ⟨fields, positional⟩ hf => ?_
  have hshape := Schema.shape_of_fields hf
  have hfs : ∀ f ∈ fields, Shown s root (.ofField f) := fun f hf => hs.field hh hshape hf
  rw [GuardKey.places_record hh hshape]
  have hassign : ∀ source c, Pending targets n c → Visits s targets n (fields.map .ofField) c
      (do let r ← assignFields T source 0 fields; emit (.construct "cls")) fun _ => True :=
    fun source c hc => .bind_quiet (assignFields_visits hT source 0 hc hfs)
      fun _ c _ hc => emit_quiet hc _
  cases positional with
  | true => exact Visits.quiet_bind (emit_quiet hc _) fun _ c _ hc => hassign _ c hc
  | false =>
    refine Visits.quiet_bind (emit_quiet hc _) fun _ c _ hc => ?_
    by_cases ho : options.denyUnknownKeys = true
    · rw [if_pos ho]
      exact Visits.quiet_bind (emit_quiet hc _) fun _ c _ hc => hassign _ c hc
    · rw [if_neg ho]
      exact hassign _ c hc

theorem record_visits (hT : T.Visit s root targets n) (options : Options)
    (hc : Pending targets n c) (hs : Shown s root (.value d.ty)) (hh : s.hook? d.ty = none) :
    Visits s targets n ((GuardKey.origin d.ty).places s) c (record T d options) fun _ => True := by
  refine .direction ?_
  cases s.direction with
  | load => exact loadRecord_visits hT options hc hs hh
  | dump =>
    refine .schema <| .liftKind fun ⟨fields, positional⟩ hf => ?_
    have hshape := Schema.shape_of_fields hf
    rw [GuardKey.places_record hh hshape]
    refine Visits.quiet_bind (emit_quiet hc _) fun _ c _ hc => ?_
    refine .bind_quiet (dumpFields_visits hT _ _ _ 0 hc ?_) fun _ c _ hc => emit_quiet hc _
    exact fun f hf => hs.field hh hshape hf

theorem tuple_visits (hT : T.Visit s root targets n) (hc : Pending targets n c)
    (hs : Shown s root (.value d.ty)) (hh : s.hook? d.ty = none) :
    Visits s targets n ((GuardKey.origin d.ty).places s) c (tuple T d) fun _ => True := by
  refine .direction ?_
  cases s.direction with
  | load =>
    refine .schema <| .liftKind fun ts hts => ?_
    have hshape := Schema.shape_of_elements hts
    rw [GuardKey.places_tuple hh hshape]
    refine Visits.quiet_bind (emit_quiet hc _) fun _ c _ hc => ?_
    refine .bind_quiet (assignElements_visits hT _ _ 0 hc ?_) fun _ c _ hc => emit_quiet hc _
    exact fun u hu => hs.within hh (by simpa [Schema.within, hshape])
  | dump =>
    refine .schema <| .liftKind fun ts hts => ?_
    have hshape := Schema.shape_of_elements hts
    rw [GuardKey.places_tuple hh hshape]
    refine Visits.quiet_bind (emit_quiet hc _) fun _ c _ hc => ?_
    refine .bind_quiet (dumpElements_visits hT _ _ 0 hc ?_) fun _ c _ hc => emit_quiet hc _
    exact fun u hu => hs.within hh (by simpa [Schema.within, hshape])

theorem union_visits (hT : T.Visit s root targets n) (hc : Pending targets n c)
    (hs : Shown s root (.value d.ty)) (hh : s.hook? d.ty = none) :
    Visits s targets n ((GuardKey.origin d.ty).places s) c (union T d) fun _ => True := by
  refine .schema <| .liftKind fun variants hv => ?_
  have hshape := Schema.shape_of_variants hv
  rw [GuardKey.places_union hh hshape]
  refine Visits.quiet_bind (bindHelper_quiet hc "union" _) fun _ c _ hc => ?_
  refine Visits.quiet_bind (freshBinder_quiet hc) fun x c _ hc => ?_
  refine .bind_quiet (alternatives_visits hT x hc ?_) fun _ c _ hc => emit_quiet hc _
  exact fun v hv => hs.within hh (by simpa [Schema.within, hshape] using ⟨v, hv, rfl⟩)

theorem returnValue_visits (hT : T.Visit s root targets n) (hc : Pending targets n c)
    (hd : d.ty = t) (hs : Shown s root (.value t)) :
    Visits s targets n [.value t] c (do emit (.returnValue (← value T d))) fun _ => True :=
  .bind_quiet (value_visits hT hc hd hs) fun _ _ _ hc => emit_quiet hc _

theorem slot_visits (hT : T.Visit s root targets n) {d' : Descriptor} (hc : Pending targets n c)
    (hg : d.given = some [d']) (hs : Shown s root (.value d'.ty)) :
    Visits s targets n ((GuardKey.arguments [d'.ty]).places s) c (slot T d) fun _ => True := by
  refine .schema ?_
  simp only [Descriptor.arguments, hg, List.head?_cons]
  exact returnValue_visits hT hc rfl hs

theorem root_visits (hT : T.Visit s root targets n) (hc : Pending targets n c)
    (hs : Shown s root (.value d.ty)) :
    Visits s targets n ((GuardKey.origin d.ty).places s) c (Compile.root T d) fun _ => True := by
  refine .schema <| .read <| Sat.bind <| hook_sat ?_
  refine procedure_visits hc fun c hc => ?_
  split
  case h_1 hk hh => exact record_visits hT _ hc hs hh
  case h_2 hk hh => exact tuple_visits hT hc hs hh
  case h_3 hk hh => exact union_visits hT hc hs hh
  case h_4 h₁ h₂ h₃ =>
    rw [GuardKey.places_value]
    · exact returnValue_visits hT hc rfl hs
    · intro ⟨hh, hp⟩
      unfold Schema.HasProcedure at hp
      cases hs : s.schema.shape d.ty <;> simp_all [Schema.kind, Shape.kind]

end Bodies

/-! ## Calls -/

section Wrapper

variable {s : Settings} {root : Ty} {targets : List GuardKey} {n : Nat} {c : Context}
  {key : GuardKey} {w : Wrapper} {d : Descriptor}

-- What a wrapper runs to compile a target.
def Wrapper.body (w : Wrapper) (d : Descriptor) : CompileM Unit :=
  match w.scope with
  | .external _ => w.compiler.run d
  | .nested => procedure (w.compiler.run d)

-- The places of a target that is met for the first time are gone through after it was reserved.
theorem procedureOf_enter (hc : Pending targets n c) (hm : key ∈ targets)
    (hkey : w.key s.schema d = key) (hn : c.guard.lookup key = none)
    (hbody : ∀ m d' c', n = m + 1 → d'.ty = d.ty → d'.given = d.given → Pending targets m c' →
      Visits s targets m (key.places s) c' (w.body d') fun _ => True) :
    Sat (w.procedureOf d) s c
      (fun _ c' => Walk s (key.places s) (c.guard.keys ++ [key]) (.ok c'.guard.keys) ∧
        Pending targets n c')
      (Stopped s (key.places s) (c.guard.keys ++ [key])) := by
  refine .bind <| .schema ?_
  rw [hkey]
  refine .seq (lookup_sat key) ?_
  rintro found c₁ ⟨rfl, hguard₁, -⟩
  rw [hn]
  refine .bind <| .get <| .bind <| .direction <| .seq (reserve_sat key _) ?_
  rintro name c₂ ⟨-, hguard₂, -⟩
  generalize w.procedureName s.direction c₁.displayName d = wanted at hguard₂
  rw [hguard₁] at hguard₂
  have hlt := Guard.remaining_reserve_lt wanted hm hn
  obtain ⟨m, rfl⟩ : ∃ m, n = m + 1 := ⟨n - 1, by have := hc.remaining; omega⟩
  have hkeys : c₂.guard.keys = c.guard.keys ++ [key] := by rw [hguard₂, Guard.keys_reserve _ hn]
  rw [← hkeys]
  refine .bind <| .nested <| .bind <| .modify <| .bind <| .param ?_
  have hpending : ∀ c' : Context, c'.guard = c₂.guard → Pending targets m c' := by
    intro c' hg
    rw [hguard₂] at hg
    have := hc.remaining
    exact ⟨hg ▸ hc.proper.reserve wanted, by rw [hg]; omega⟩
  refine (Sat.imp (hbody m (d.readFrom (.var s.direction.param)) _ rfl rfl rfl (hpending _ ?same))
    ?done).imp_fail ?failed
  case same => rfl
  case failed =>
    intro e he c'
    exact .bind <| .ofExcept (fun _ h => nomatch h) fun _ h => Except.error.inj h ▸ he
  case done =>
    intro _ c₃ ⟨_, hw, hc₃⟩
    have hc₃' : Pending targets (m + 1) (c₂.rejoin c₃) :=
      ⟨hc₃.proper, Nat.le_succ_of_le hc₃.remaining⟩
    refine .bind <| .ofExcept (fun _ _ => ?_) fun _ h => nomatch h
    refine .bind <| (Sat.imp (merge_quiet (s := s) hc₃' c₃.builder) ?_).imp_fail ?_
    · exact fun _ c₄ ⟨_, hw', hc₄⟩ => .pure ⟨List.append_nil (key.places s) ▸ hw.append hw', hc₄⟩
    · exact fun e he => Stopped.imp he fun _ ht =>
        List.append_nil (key.places s) ▸ hw.append ht

theorem invoke_visits {p : Place} (hc : Pending targets n c) (hp : p.target? s = some key)
    (hm : key ∈ targets) (hkey : w.key s.schema d = key)
    (hbody : ∀ m d' c', n = m + 1 → d'.ty = d.ty → d'.given = d.given → Pending targets m c' →
      Visits s targets m (key.places s) c' (w.body d') fun _ => True) :
    Visits s targets n [p] c (w.invoke d) fun _ => True := by
  suffices h : Visits s targets n [p] c (w.procedureOf d) fun _ => True from
    .bind_quiet h fun _ _ _ hc => .pure hc trivial
  cases hn : c.guard.lookup key with
  | none =>
    have hnew := Guard.lookup_eq_none_iff.mp hn
    refine ((procedureOf_enter hc hm hkey hn hbody).imp ?_).imp_fail ?_
    · exact fun _ c' ⟨hw, hc'⟩ => ⟨trivial, .enter hp hnew (by rwa [List.append_nil]), hc'⟩
    · exact fun e he => Stopped.imp he fun _ ht => .enter hp hnew (by rwa [List.append_nil])
  | some name =>
    have hold := Guard.mem_keys hn
    refine Sat.bind <| Sat.schema ?_
    rw [hkey]
    refine Sat.seq (lookup_sat key) ?_
    rintro found c₁ ⟨rfl, hguard₁, -⟩
    rw [hn]
    refine Sat.pure ⟨trivial, ?_, hguard₁ ▸ hc.proper, hguard₁ ▸ hc.remaining⟩
    rw [hguard₁]
    exact .again hp hold .done

end Wrapper

section Depth

open Compile

variable {s : Settings} {root : Ty} {targets : List GuardKey} {n : Nat} {T : Targets}

-- A value that has a procedure is gone through by a call of its target.
theorem invoke_origin_visits {w : Wrapper} {d : Descriptor} {c : Context}
    (hk : ∀ key, IsTarget s root key → key ∈ targets) (hc : Pending targets n c)
    (hs : Shown s root (.value d.ty)) (hh : s.hook? d.ty = none)
    (hp : s.schema.HasProcedure d.ty) (hkey : w.key s.schema d = .origin d.ty)
    (hbody : ∀ m d' c', n = m + 1 → Pending targets m c' → Shown s root (.value d'.ty) →
      s.hook? d'.ty = none →
      Visits s targets m ((GuardKey.origin d'.ty).places s) c' (w.body d') fun _ => True) :
    Visits s targets n [.value d.ty] c (w.invoke d) fun _ => True := by
  have htarget := Place.target?_value hh hp
  refine invoke_visits hc htarget (hk _ <| hs.isTarget htarget) hkey fun m d' c' hn ht _ hc => ?_
  rw [← ht] at hs hh ⊢
  exact hbody m d' c' hn hc hs hh

-- One more target may be compiled by compilers that call targets.
theorem ofTargets_visit (hk : ∀ key, IsTarget s root key → key ∈ targets)
    (h : ∀ m, n = m + 1 → T.Visit s root targets m) :
    (WrapperSet.ofTargets s.direction T).targets.Visit s root targets n where
  record := by
    rintro t d c rfl hc hs hh hkind
    have hp := Schema.hasProcedure_of_kind (.inl hkind)
    refine invoke_origin_visits hk hc hs hh hp rfl ?_
    intro m d c hn hc hs hh
    exact procedure_visits hc fun c hc => .read <| record_visits (h m hn) _ hc hs hh
  union  := by
    rintro t d c rfl hc hs hh hkind
    have hp := Schema.hasProcedure_of_kind (.inr <| .inl hkind)
    refine invoke_origin_visits hk hc hs hh hp rfl ?_
    intro m d c hn hc hs hh
    exact procedure_visits hc fun c hc => union_visits (h m hn) hc hs hh
  tuple  := by
    rintro t d c rfl hc hs hh hkind
    have hp := Schema.hasProcedure_of_kind (.inr <| .inr hkind)
    refine invoke_origin_visits hk hc hs hh hp rfl ?_
    intro m d c hn hc hs hh
    exact procedure_visits hc fun c hc => tuple_visits (h m hn) hc hs hh
  slot   := by
    intro d d' c hc hs hg
    have hkey : (WrapperSet.ofTargets s.direction T).slot.key s.schema d = .arguments [d'.ty] := by
      simp [WrapperSet.ofTargets, Wrapper.key, GuardKey.ofArguments, Descriptor.argumentTypes,
        Descriptor.arguments, hg]
    refine invoke_visits hc rfl (hk _ <| hs.isTarget rfl) hkey fun m e c' hn _ he hc => ?_
    refine procedure_visits hc fun c hc => ?_
    have hvalue := (hs.isTarget rfl).places (p := .value d'.ty) (List.mem_singleton.mpr rfl)
    exact slot_visits (h m hn) hc (he.trans hg) hvalue

theorem ofDepth_visit (hk : ∀ key, IsTarget s root key → key ∈ targets) (n : Nat) :
    (WrapperSet.ofDepth s.direction n).targets.Visit s root targets n := by
  induction n with
  | zero => exact ofTargets_visit hk nofun
  | succ n ih =>
    refine ofTargets_visit hk fun m hn => ?_
    cases hn
    exact ih

end Depth

/-! ## Whole compilations -/

-- A compilation where calls of targets are nested at most `depth` deep below the root.
def entryWithin (S : Schema) (d : Direction) (depth : Nat) (root : Ty) : CompileM String := do
  (WrapperSet.ofDepth d depth).root.procedureOf (.new S root (← CompileM.param))

-- A compilation that may nest as many calls as there are targets follows the walk.
theorem entryWithin_sat {s : Settings} {root : Ty} {targets : List GuardKey}
    (hk : ∀ key, IsTarget s root key → key ∈ targets) {depth : Nat} (hd : targets.length ≤ depth)
    (record : String) :
    Sat (entryWithin s.schema s.direction depth root) s (.new record)
      (fun _ c => Walk.FromRoot s root (.ok c.guard.keys) ∧ c.guard.Proper)
      (Stopped s ((GuardKey.origin root).places s) [.origin root]) := by
  have hc : Pending targets depth (.new record) :=
    ⟨⟨nofun, nofun⟩, Nat.le_trans List.countP_le_length hd⟩
  have hm := hk _ .root
  cases depth with
  | zero => exact absurd (List.length_pos_of_mem hm) (by omega)
  | succ depth =>
    refine .bind <| .param <| (procedureOf_enter hc hm rfl rfl ?_).imp ?_
    · intro m d c hn hd _ hc
      cases hn
      have hd : d.ty = root := hd
      subst hd
      exact root_visits (ofDepth_visit hk _) hc (.value .root)
    · exact fun _ c ⟨hw, hc⟩ => ⟨hw, hc.proper⟩

theorem exists_targets (s : Settings) (root : Ty) :
    ∃ targets : List GuardKey, targets.Nodup ∧ (∀ key, key ∈ targets ↔ IsTarget s root key) ∧
      targets.length ≤ 2 * (WrapperSet.reachable s.schema [root]).length := by
  classical
  refine ⟨((GuardKey.ofTypes (WrapperSet.reachable s.schema [root])).filter
    fun key => IsTarget s root key).dedup, List.nodup_dedup _, fun key => ?_, ?_⟩
  · simpa using fun h => IsTarget.mem_ofTypes h
  · rw [← GuardKey.length_ofTypes]
    exact Nat.le_trans (List.dedup_sublist _).length_le (List.length_filter_le ..)

theorem entryStep_eq (S : Schema) (d : Direction) (root : Ty) :
    entryStep S d root = entryWithin S d (2 * (WrapperSet.reachable S [root]).length + 1) root :=
  rfl

section

variable {S : Schema} {options : Options} {hooks : Hooks} {d : Direction} {root : Ty}

theorem compileProcedures_result : (compileProcedures S options hooks d root).result =
    match entryStep S d root ⟨S, d, hooks, options⟩ (.new (Text.identifier (S.name root))) with
    | .ok entry c => .ok ⟨c.builder, entry⟩
    | .error e _ => .error e := by
  unfold compileProcedures
  simp only [ReaderT.run, EStateM.run]
  cases entryStep S d root ⟨S, d, hooks, options⟩ (.new (Text.identifier (S.name root))) <;> rfl

theorem entryStep_walk (s : Settings) (root : Ty) (record : String) :
    Sat (entryStep s.schema s.direction root) s (.new record)
      (fun _ c => Walk.FromRoot s root (.ok c.guard.keys) ∧ c.guard.Proper)
      (Stopped s ((GuardKey.origin root).places s) [.origin root]) := by
  have ⟨targets, _, hk, hlen⟩ := exists_targets s root
  exact entryWithin_sat (fun key => (hk key).mpr) (by omega) record

-- The procedures of a compilation are those of the targets that a walk to the end meets.
theorem compileProcedures_walked {source : Source}
    (h : (compileProcedures S options hooks d root).result = .ok source) :
    ∃ g : Guard, Compilation ⟨S, d, hooks, options⟩ root source g.lookup ∧
      Walk.FromRoot ⟨S, d, hooks, options⟩ root (.ok g.keys) ∧ g.Proper := by
  have hform := entryStep_sat ⟨S, d, hooks, options⟩ root (Text.identifier (S.name root))
  have hwalk := entryStep_walk ⟨S, d, hooks, options⟩ root (Text.identifier (S.name root))
  rw [compileProcedures_result] at h
  split at h
  case h_1 entry c hr =>
    cases h
    exact ⟨c.guard, hform.result hr, hwalk.result hr⟩
  case h_2 => nomatch h

-- A compilation fails for the foreign type that stops the walk.
theorem compileProcedures_stopped {e : CodegenError}
    (h : (compileProcedures S options hooks d root).result = .error e) :
    ∃ t, Walk.FromRoot ⟨S, d, hooks, options⟩ root (.error t) ∧ e = .unsupported (S.path t) d := by
  have ⟨u, _, _, _, he⟩ := compileProcedures_refused h
  have hwalk := entryStep_walk ⟨S, d, hooks, options⟩ root (Text.identifier (S.name root))
  rw [compileProcedures_result] at h
  split at h
  case h_1 => nomatch h
  case h_2 hr =>
    cases h
    rcases hwalk.error hr with hi | ht
    · exact absurd hi (he ▸ id)
    · exact ht

end

-- A tree over a type parameter, whose shape is a union of a tuple and a flag.
def orchard : Schema where
  declarations := [
    ("Tree", {
      names := .applied "app" "Tree" [.plain "u8"]
      definition := .record [
        { name := "fruit", key := "fruit", ty := .scalar (.int .u8), param := some 0 },
        { name := "shape", key := "shape", ty := .declared "Shape" },
        { name := "branches", key := "branches", ty := .list .vector (.declared "Tree") }] false
      generics := [("T", .scalar (.int .u8))] }),
    ("Shape", {
      names := .qualified "app" "Shape"
      definition := .union [
        { name := "Size", ty := .tuple [.scalar (.int .u8), .scalar (.int .i32)] },
        { name := "Bare", ty := .scalar .bool }] })]

end TreeCodec
