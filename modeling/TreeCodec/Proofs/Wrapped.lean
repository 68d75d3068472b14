import TreeCodec.Proofs.Compile

/-!
Every target is compiled to a procedure of its own, at most once, and never too deep.
-/
namespace TreeCodec

open CompileM

-- The procedure of a target was compiled in a context without others.
structure Completes (s : Settings) (g : Guard) (key : GuardKey) (name : String) (c : Context) :
    Prop where
  pending : c.builder.pending = []
  sealed  : ∃ new p, c.builder.sealed = new ++ [p] ∧ Grows s g c.guard new ∧ p.name = name ∧
    ProcedureFor s c.guard.lookup key p

-- The context in which the procedure of a target is compiled.
structure Begins (keys : List GuardKey) (n : Nat) (key : GuardKey) (name : String) (c : Context) :
    Prop where
  pending   : c.builder.pending = []
  sealed    : c.builder.sealed = []
  index     : c.builder.index = []
  named     : c.procedureName = some name
  seeds     : c.seeds = [("cls", .type key.subject)]
  taken     : name ∈ c.guard.names
  remaining : c.guard.remaining keys ≤ n

section Procedure

variable {s : Settings} {c : Context} {keys : List GuardKey} {n : Nat} {key : GuardKey}
  {name : String}

theorem begin_sat {locals : Locals} (hp : c.builder.pending = []) (hi : c.builder.index = [])
    {fail : CodegenError → Prop} :
    Sat (onBuilder (Builder.begin name (.of s.direction) locals)) s c
      (fun _ c' => c' = { c with builder := { c.builder with
        pending := [{ name, signature := .of s.direction, locals }] } }) fail := by
  simp [Sat, onBuilder, Builder.begin, Builder.isDefined, Builder.isSealed, Builder.place?, hp, hi]

theorem finish_sat {p : Procedure} (hp : c.builder.pending = [p])
    (hs : c.builder.isSealed p.name = false) {fail : CodegenError → Prop} :
    Sat (onBuilder Builder.finish) s c
      (fun _ c' => c' = { c with builder := { c.builder.append p with pending := [] } }) fail := by
  simp [Sat, onBuilder, Builder.finish, hp, hs]

theorem procedure_sat {step : CompileM Unit} {fail : CodegenError → Prop}
    (hc : Begins keys n key name c)
    (hstep : ∀ c', Open keys n c' → c'.guard = c.guard →
      Sat step s c' (fun _ => Fills s c' key) fail) :
    Sat (procedure step) s c (fun _ => Completes s c.guard key name) fail := by
  refine .bind <| .get ?_
  simp only [hc.named]
  refine .bind <| .set <| .bind <| .direction <|
    .seq (begin_sat (by exact hc.pending) (by exact hc.index)) ?_
  intro _ c₁ h₁
  have hpending₁ : c₁.builder.pending =
      [{ name, signature := .of s.direction, locals := c.seeds }] := by rw [h₁]
  have hsealed₁ : c₁.builder.sealed = [] := by rw [h₁]; exact hc.sealed
  have hguard₁ : c₁.guard = c.guard := by rw [h₁]
  have hindexed₁ : c₁.builder.Indexed := by
    intro _ _ hi
    simp [h₁, Builder.place?, hc.index] at hi
  have hopen₁ : Open keys n c₁ := by
    refine ⟨⟨by simp [hsealed₁], ?_, hindexed₁, hguard₁ ▸ hc.remaining⟩, by simp [hpending₁]⟩
    simpa [hpending₁, hguard₁] using hc.taken
  refine .bind <| .attempt <| ((hstep c₁ hopen₁ hguard₁).imp ?done).imp_fail ?failed
  case failed =>
    -- The procedure is sealed also after a failure, which is then passed on.
    intro e he c'
    refine .bind <| .attempt <| .of_forall (fun _ _ => ?_) fun _ _ => ?_ <;>
      exact .bind <| .ofExcept (fun _ h => nomatch h) fun _ h => Except.error.inj h ▸ he
  case done =>
    intro _ c₂ ⟨body, hbody, hext⟩
    have ⟨new, hsealed, hgrown⟩ := hext.grown
    have hpending := hext.pending
    simp only [hpending₁, List.modifyHead_cons] at hpending
    rw [hsealed₁, List.nil_append] at hsealed
    rw [hguard₁] at hgrown
    have hfree : c₂.builder.isSealed name = false := by
      refine Bool.eq_false_iff.mpr fun hs => ?_
      have ⟨q, hq, hn⟩ := List.mem_map.mp <| (hext.indexed hindexed₁).mem_names hs
      exact hgrown.fresh q (hsealed ▸ hq) (hn ▸ hc.taken)
    refine .bind <| .attempt <| (finish_sat hpending hfree).imp ?_
    intro _ c₃ h₃
    have hpending₃ : c₃.builder.pending = [] := by rw [h₃]
    have hsealed₃ : c₃.builder.sealed = c₂.builder.sealed ++ [_] :=
      congrArg (·.builder.sealed) h₃
    rw [hsealed] at hsealed₃
    have hguard₃ : c₃.guard = c₂.guard := by rw [h₃]
    refine .bind <| .ofExcept (fun _ _ => .ofExcept (fun _ _ => ?_) fun _ h => nomatch h)
      fun _ h => nomatch h
    refine ⟨hpending₃, new, _, hsealed₃, hguard₃ ▸ hgrown, rfl, rfl, hguard₃ ▸ hbody, ?_⟩
    simp [Procedure.extend, hc.seeds]

end Procedure

section Wrapper

variable {s : Settings} {met : Ty → Prop} {c : Context} {keys : List GuardKey} {n : Nat}
  {key : GuardKey}

theorem reserve_sat (key : GuardKey) (wanted : String) {fail : CodegenError → Prop} :
    Sat (reserve key wanted) s c (fun name c' => name = (c.guard.reserve key wanted).1 ∧
      c'.guard = (c.guard.reserve key wanted).2 ∧ c'.builder = c.builder) fail :=
  .bind <| .get <| .bind <| .set <| .bind <| .modify <| .pure ⟨rfl, rfl, rfl⟩

theorem merge_sat {other : Builder} (hp : other.pending = [])
    (hs : ∀ p ∈ other.sealed, c.builder.isDefined p.name = false) {fail : CodegenError → Prop} :
    Sat (merge other) s c
      (fun _ c' => c' = { c with builder := c.builder.appendAll other.sealed }) fail := by
  have hf : other.sealed.find? (fun p => c.builder.isDefined p.name) = none :=
    List.find?_eq_none.mpr fun p hm => by simp [hs p hm]
  simp [Sat, merge, onBuilder, Builder.merge, hp, hf]

-- The names of a builder are taken, so a name that is free is not defined in it.
theorem Ready.not_defined (h : Ready keys n c) {name : String} (hn : name ∉ c.guard.names) :
    c.builder.isDefined name = false := by
  simp only [Builder.isDefined, Bool.or_eq_false_iff, List.any_eq_false, decide_eq_true_eq]
  refine ⟨Bool.eq_false_iff.mpr fun hs => ?_, fun p hp he => hn (he ▸ h.pending p hp)⟩
  have ⟨p, hp, he⟩ := List.mem_map.mp (h.indexed.mem_names hs)
  exact hn (he ▸ h.sealed p hp)

-- The procedure of a target is known under a name; one that was not known before was sealed last.
structure Invoked (s : Settings) (c : Context) (key : GuardKey) (name : String) (c' : Context) :
    Prop where
  named : c'.guard.lookup key = some name
  bound : Extends s c [] [] c'
  last  : c.guard.lookup key = none → c'.builder.names.getLast? = some name

theorem procedureOf_sat {w : Wrapper} {d : Descriptor} (hc : Ready keys n c)
    (hkey : w.key s.schema d = key) (hsubject : w.subject s.schema d = key.subject)
    (hmem : key ∈ keys)
    (hbody : ∀ m c' name, n = m + 1 → Begins keys m key name c' →
      Sat (match w.scope with
          | .external _ => w.compiler.run (d.readFrom (.var s.direction.param))
          | .nested => procedure (w.compiler.run (d.readFrom (.var s.direction.param)))) s c'
        (fun _ => Completes s c'.guard key name) (Refused s met)) :
    Sat (w.procedureOf d) s c (Invoked s c key) (Refused s met) := by
  refine .bind <| .schema ?_
  rw [hkey]
  refine .seq (lookup_sat key) ?_
  rintro found c₁ ⟨rfl, hguard₁, hbuilder₁⟩
  have h₁ : Extends s c [] [] c₁ := .of_same hbuilder₁ hguard₁
  cases hn : c.guard.lookup key with
  | some name => exact .pure ⟨hguard₁ ▸ hn, h₁, by simp [hn]⟩
  | none =>
    have hc₁ := hc.extends h₁
    rw [← hguard₁] at hn
    refine .bind <| .get <| .bind <| .direction <| .seq (reserve_sat key _) ?_
    rintro name c₂ ⟨hname, hguard₂, hbuilder₂⟩
    generalize w.procedureName s.direction c₁.displayName d = wanted at hname hguard₂
    have hlt := Guard.remaining_reserve_lt wanted hmem hn
    obtain ⟨m, rfl⟩ : ∃ m, n = m + 1 := ⟨n - 1, by have := hc₁.remaining; omega⟩
    refine .bind <| .nested <| .bind <| .modify <| .bind <| .param ?_
    refine ((hbody m _ name rfl ?begins).imp ?done).imp_fail ?failed
    case begins =>
      refine ⟨rfl, rfl, rfl, rfl, by rw [hsubject]; rfl, ?_, ?_⟩
      · show name ∈ c₂.guard.names
        rw [hguard₂, hname, Guard.names_reserve]
        exact List.mem_cons_self ..
      · show c₂.guard.remaining keys ≤ m
        rw [hguard₂]
        have := hc₁.remaining
        omega
    case failed =>
      intro e he c'
      exact .bind <| .ofExcept nofun fun _ h => Except.error.inj h ▸ he
    case done =>
      intro _ c₃ ⟨hpending, new, p, hsealed, hgrown, hp, hfor⟩
      replace hgrown : Grows s c₂.guard c₃.guard new := hgrown
      rw [hguard₂] at hgrown
      have hall : Grows s c₁.guard c₃.guard (new ++ [p]) :=
        hgrown.of_reserve hn (hp.trans hname) hfor
      refine .bind <| .ofExcept (fun _ _ => .seq (merge_sat hpending ?fresh) ?merged)
        fun _ h => nomatch h
      case fresh =>
        intro q hq
        rw [hsealed] at hq
        show c₂.builder.isDefined q.name = false
        rw [hbuilder₂]
        exact hc₁.not_defined (hall.fresh q hq)
      case merged =>
        rintro _ _ rfl
        refine .pure ⟨?_, h₁.trans ⟨?_, ⟨new ++ [p], ?_, hall⟩, fun hi => ?_⟩, fun _ => ?_⟩
        · have hk := hgrown.kept key name
          exact hk <| by rw [Guard.lookup_reserve, if_pos rfl, hname]
        · show (c₂.builder.appendAll c₃.builder.sealed).pending = _
          rw [Builder.pending_appendAll, hbuilder₂]
          cases c₁.builder.pending <;> simp [Procedure.extend_nil]
        · show (c₂.builder.appendAll c₃.builder.sealed).sealed = _
          rw [Builder.sealed_appendAll, hbuilder₂, hsealed]
        · exact .appendAll c₃.builder.sealed (hbuilder₂ ▸ hi)
        · show (c₂.builder.appendAll c₃.builder.sealed).names.getLast? = _
          simp [Builder.names, hsealed, hp]

theorem invoke_sat {w : Wrapper} {d : Descriptor} {e : CodegenError → Prop}
    (h : Sat (w.procedureOf d) s c (Invoked s c key) e) :
    Sat (w.invoke d) s c (Calls s c key d.value) e :=
  .seq h fun name _ h => .pure ⟨⟨name, rfl, h.named⟩, h.bound⟩

end Wrapper

section Depth

open Compile

variable {s : Settings} {met : Ty → Prop} {c : Context} {keys : List GuardKey} {n : Nat}
  {targets : Targets}

-- The compilers that call targets are sound where one target more is not reserved.
theorem ofTargets_sound (hm : Coverage s met keys)
    (h : ∀ m, n = m + 1 → targets.Sound s met keys m) :
    (WrapperSet.ofTargets s.direction targets).targets.Sound s met keys n where
  record := by
    intro d c hc hmt hh hk
    refine invoke_sat <| procedureOf_sat hc rfl rfl (hm.origin _ hmt) fun m c' name hn hb => ?_
    exact procedure_sat hb fun c'' ho _ => .bind <| .read <| record_sat hm (h m hn) ho rfl hmt hh hk
  union  := by
    intro d c hc hmt hh hk
    refine invoke_sat <| procedureOf_sat hc rfl rfl (hm.origin _ hmt) fun m c' name hn hb => ?_
    exact procedure_sat hb fun c'' ho _ => union_sat hm (h m hn) ho rfl hmt hh hk
  tuple  := by
    intro d c hc hmt hh hk
    refine invoke_sat <| procedureOf_sat hc rfl rfl (hm.origin _ hmt) fun m c' name hn hb => ?_
    exact procedure_sat hb fun c'' ho _ => tuple_sat hm (h m hn) ho rfl hmt hh hk
  slot   := by
    intro d d' c hc hg hmt
    refine invoke_sat <| procedureOf_sat hc ?_ ?_ (hm.arguments _ hmt) fun m c' name hn hb => ?_
    · simp [WrapperSet.ofTargets, Wrapper.key, GuardKey.ofArguments, Descriptor.argumentTypes,
        Descriptor.arguments, hg]
    · simp [WrapperSet.ofTargets, Wrapper.subject, Descriptor.arguments, hg, GuardKey.subject]
    · exact procedure_sat hb fun c'' ho _ => slot_sat hm (h m hn) ho rfl hg hmt

theorem ofDepth_sound (hm : Coverage s met keys) (n : Nat) :
    (WrapperSet.ofDepth s.direction n).targets.Sound s met keys n := by
  induction n with
  | zero => exact ofTargets_sound hm nofun
  | succ n ih =>
    refine ofTargets_sound hm fun m hn => ?_
    cases hn
    exact ih

theorem root_sat (hm : Coverage s met keys) (ht : targets.Sound s met keys n) {d : Descriptor}
    {name : String} (hc : Begins keys n (.origin d.ty) name c)
    (hv : d.value = .var s.direction.param) (hmt : met d.ty) :
    Sat (root targets d) s c (fun _ => Completes s c.guard (.origin d.ty) name)
      (Refused s met) := by
  refine .bind <| .schema <| .bind <| .read <| .bind <| hook_sat ?_
  refine procedure_sat hc fun c' ho _ => ?_
  split
  case h_1 hk hh => exact record_sat hm ht ho hv hmt hh hk
  case h_2 hk hh => exact tuple_sat hm ht ho hv hmt hh hk
  case h_3 hk hh => exact union_sat hm ht ho hv hmt hh hk
  case h_4 h₁ h₂ h₃ =>
    refine returnValue_sat hm ht _ ho rfl hmt fun name? e he => .value ?_ (hv ▸ he)
    intro ⟨hh, hp⟩
    unfold Schema.HasProcedure at hp
    cases hs : s.schema.shape d.ty <;> simp_all [Schema.kind, Shape.kind]

end Depth
end TreeCodec
