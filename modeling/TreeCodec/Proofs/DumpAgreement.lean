import TreeCodec.Proofs.DirectDepth
import TreeCodec.Proofs.DumpCalls
import TreeCodec.Proofs.DumpUnit

/-!
The procedures of a unit and direct dumping go on where the other one does, with enough depth.
-/
namespace TreeCodec

open Target

section Direct

variable {S : Schema} {hooks : Hooks} {options : Options}

-- Direct dumping as the conversion of targets.
abbrev directDumps (S : Schema) (hooks : Hooks) (options : Options) (d : Nat) (key : GuardKey) :
    Dump.Rule :=
  Direct.dump S hooks options d key.subject

theorem dumpInline_below_direct (d : Nat) (t : Ty) :
    (dumpInline S hooks (directDumps S hooks options (d + 1)) t).Below
      (Direct.dump S hooks options (d + 1) t) := by
  cases t with
  | scalar | dynamic => exact .refl _
  | optional t => exact Direct.dumpHooked_mono <| Dump.optional_mono (dumpInline_below_direct d t)
  | boxed t => exact Direct.dumpHooked_mono <| Dump.boxed_mono (dumpInline_below_direct d t)
  | list _ t => exact Direct.dumpHooked_mono <| Dump.list_mono (dumpInline_below_direct d t)
  | map _ t u =>
    exact Direct.dumpHooked_mono <|
      Dump.map_mono (dumpInline_below_direct d t) (dumpInline_below_direct d u)
  | tuple => exact .of_eq (Direct.dumpHooked_idem _ _)
  | declared id =>
    unfold dumpInline
    split
    case isTrue hk =>
      refine Direct.dumpHooked_mono <| .of_eq ?_
      simp only [Direct.dumpWithin, Direct.dumpDeclared, Schema.shape_of_kind_dynamic hk]
    case isFalse => exact .of_eq (Direct.dumpHooked_idem _ _)

theorem dumpField_below_direct (d : Nat) (f : Field) :
    (dumpField S hooks (directDumps S hooks options (d + 1)) f).Below
      (Direct.dump S hooks options (d + 1) f.ty) := by
  unfold dumpField
  split
  · exact .refl _
  · exact dumpInline_below_direct d f.ty

theorem dump_below_direct (d : Nat) (key : GuardKey) :
    (Target.dump S hooks options (directDumps S hooks options (d + 1)) key).Below
      (Direct.dump S hooks options (d + 2) key.subject) := by
  match key with
  | .arguments ts => exact (dumpInline_below_direct d _).trans <| Direct.dump_mono (by omega) _
  | .origin t =>
    by_cases hp : hooks.dump? t = none ∧ S.HasProcedure t
    case neg =>
      rw [dump_origin_of_not hp]
      exact (dumpInline_below_direct d t).trans <| Direct.dump_mono (by omega) t
    case pos =>
      rcases hp.right.tuple_or_declared with ⟨ts, rfl⟩ | ⟨id, rfl, _⟩
      case inl =>
        have hd : (Direct.dump S hooks options (d + 1) (.tuple ts)).Below
            (Direct.dump S hooks options (d + 2) (.tuple ts)) := Direct.dump_mono (by omega) _
        refine .trans (Direct.dumpHooked_mono <| Direct.dumpTuple_mono ?_) hd
        rw [Direct.dumpTypes_eq_map]
        exact forall₂_maps fun t _ => dumpInline_below_direct d t
      case inr =>
        apply Direct.dumpHooked_mono
        have hp := hp.right
        unfold Schema.HasProcedure at hp
        cases hs : S.shape (.declared id) <;>
          simp only [hs, dumpOrigin, Direct.dumpWithin, Direct.dumpDeclared] at hp ⊢
        case record fields positional =>
          have hf : Direct.DumpsBelow
              (fields.map fun f => (f, dumpField S hooks (directDumps S hooks options (d + 1)) f))
              (fields.map fun f => (f, Direct.dump S hooks options (d + 1) f.ty)) :=
            Direct.dumpsBelow_map fun f _ => dumpField_below_direct d f
          cases positional
          · exact fun v => Direct.dumpMapping_mono hf 0 []
          · exact Direct.dumpSequence_mono hf
        case union variants =>
          exact Dump.union_mono <| forall₂_maps fun v _ => dumpInline_below_direct d v.ty
        case tuple =>
          rcases S.shape_declared id with ⟨_, _, h⟩ | ⟨_, h⟩ | h | h <;> simp [hs] at h

end Direct

section Unit

variable {s : Settings} {root : Ty} {source : Source} {name? : GuardKey → Option String}
  {U : CompiledUnit}

-- A unit that nests `n` calls does what direct dumping does that nests one declared type more.
theorem DumpsTargets.below_direct (hU : DumpsTargets s name? U) (n : Nat) (key : GuardKey) :
    (U.targetDumps s.schema name? n key).Below
      (Direct.dump s.schema s.hooks s.options (n + 1) key.subject) := by
  induction n generalizing key with
  | zero =>
    intro v
    refine .inl ?_
    unfold CompiledUnit.targetDumps calledDump
    cases (name? key).bind U.slots.dump? <;> rfl
  | succ n ih =>
    intro v
    cases hk : name? key with
    | none => exact .inl <| by simp [CompiledUnit.targetDumps, calledDump, hk, Run.unfinished]
    | some name =>
      refine .trans (.of_untrailed_eq (hU.step key name hk n v)) ?_
      exact (Target.dump_mono ih key v).trans (dump_below_direct n key v)

theorem Outputs.exists_fieldExpr {source : Nat → Field → Operand} {put : Field → Expr → Stmt}
    {i : Nat} {fs : List Field} {stmts : List Stmt} (h : Outputs s name? source put i fs stmts) :
    ∀ f ∈ fs, ∃ arg e, FieldExpr s name? f arg e := by
  induction h with
  | nil => nofun
  | cons he _ ih =>
    intro f hf
    rcases List.mem_cons.mp hf with rfl | hf
    · exact ⟨_, _, he⟩
    · exact ih f hf

theorem Direct.dump_hooked {S : Schema} {hooks : Hooks} {options : Options} {t : Ty}
    {f : DumpHook} (h : hooks.dump? t = some f) (d : Nat) :
    Direct.dump S hooks options d t = Dump.hook f := by
  cases t <;> simp [Direct.dump, Direct.dumpType, Direct.dumpHooked, h]

-- Where a procedure is called for a target, there is one more call to make.
theorem DumpsTargets.below_step (hU : DumpsTargets s name? U) {key : GuardKey} {name : String}
    (hk : name? key = some name) {rule : Dump.Rule} {N : Nat}
    (h : rule.Below
      (Target.dump s.schema s.hooks s.options (U.targetDumps s.schema name? N) key)) :
    rule.Below (U.targetDumps s.schema name? (N + 1) key) :=
  fun v => (h v).trans <| .of_untrailed_eq (hU.step key name hk N v).symm

-- Whether direct dumping does what the procedures do that nest `K` calls or more, wherever a value of
-- the type is converted.
def DumpsInline (s : Settings) (name? : GuardKey → Option String) (U : CompiledUnit) (d K : Nat)
    (t : Ty) : Prop :=
  ∀ arg e, ExprFor s name? t arg e → ∀ N, K ≤ N →
    (Direct.dump s.schema s.hooks s.options d t).Below
      (dumpInline s.schema s.hooks (U.targetDumps s.schema name? N) t)

-- A slot costs one call more than the type in it.
theorem DumpsTargets.below_dumpField (hc : Compilation s root source name?)
    (hU : DumpsTargets s name? U) {d K : Nat} {f : Field} {arg : Operand} {e : Expr}
    (h : DumpsInline s name? U d K f.ty) (he : FieldExpr s name? f arg e) {N : Nat}
    (hN : K + 1 ≤ N) :
    (Direct.dump s.schema s.hooks s.options d f.ty).Below
      (dumpField s.schema s.hooks (U.targetDumps s.schema name? N) f) := by
  cases he with
  | inline hp he =>
    simp only [dumpField, hp]
    exact h _ e he N (by omega)
  | slot hp hn =>
    simp only [dumpField, hp]
    obtain ⟨p, _, _, hfor⟩ := hc.covered _ _ hn
    obtain ⟨N, rfl⟩ : ∃ N', N = N' + 1 := ⟨N - 1, by omega⟩
    apply hU.below_step hn
    have hbody := hfor.body
    generalize p.body = body at hbody
    cases hbody with
    | slot he => exact h _ _ he N (by omega)

theorem DumpsInline.of_dynamic {t : Ty} (ht : s.schema.shape t = .dynamic) (d : Nat)
    (call : GuardKey → Dump.Rule) :
    (Direct.dump s.schema s.hooks s.options d t).Below (dumpInline s.schema s.hooks call t) := by
  rw [dumpInline_dynamic ht]
  rcases Schema.dynamic_or_declared ht with rfl | ⟨id, rfl⟩
  case inl => exact .refl _
  case inr =>
    apply Direct.dumpHooked_mono
    cases d with
    | zero => exact fun _ => .inl rfl
    | succ d => exact .of_eq <| by simp only [Direct.dumpWithin, Direct.dumpDeclared, ht]

theorem DumpsInline.of_tuple (hd : s.direction = .dump) {ts : List Ty} {body : List Stmt}
    (hh : s.hook? (.tuple ts) = none) (hbody : BodyFor s name? (.origin (.tuple ts)) body) {d K : Nat}
    (h : ∀ t ∈ ts, DumpsInline s name? U d K t) {N : Nat} (hN : K ≤ N) :
    (Direct.dump s.schema s.hooks s.options d (.tuple ts)).Below
      (Target.dump s.schema s.hooks s.options (U.targetDumps s.schema name? N)
        (.origin (.tuple ts))) := by
  apply Direct.dumpHooked_mono
  cases hbody with
  | dumpTuple _ _ hs ha =>
    cases hs
    apply Direct.dumpTuple_mono
    rw [Direct.dumpTypes_eq_map]
    refine forall₂_maps fun t ht => ?_
    have ⟨arg, e, he⟩ := ha.exists_fieldExpr (.ofElement t) (List.mem_map_of_mem ht)
    cases he with
    | slot hp => nomatch hp
    | inline _ he => exact h t ht arg e he N hN
  | loadMapping _ _ hs | loadSequence _ _ hs | dumpMapping _ _ hs | dumpSequence _ _ hs
  | union _ hs => nomatch hs
  | loadTuple hd' => exact absurd (hd.symm.trans hd') nofun
  | value hv => exact absurd ⟨hh, trivial⟩ hv

-- The fields of a record and the variants of a union nest one declared type less.
theorem DumpsInline.of_declared (hc : Compilation s root source name?) (hd : s.direction = .dump)
    (hU : DumpsTargets s name? U) {id : String} {body : List Stmt}
    (hh : s.hook? (.declared id) = none) (hp : s.schema.HasProcedure (.declared id))
    (hbody : BodyFor s name? (.origin (.declared id)) body) {d K : Nat}
    (h : ∀ t ∈ s.schema.within (.declared id), DumpsInline s name? U d K t) {N : Nat}
    (hN : K + 1 ≤ N) :
    (Direct.dump s.schema s.hooks s.options (d + 1) (.declared id)).Below
      (Target.dump s.schema s.hooks s.options (U.targetDumps s.schema name? N)
        (.origin (.declared id))) := by
  apply Direct.dumpHooked_mono
  simp only [Direct.dumpWithin, Direct.dumpDeclared, dumpOrigin]
  cases hbody with
  | dumpMapping _ _ hs ha =>
    simp only [hs, Bool.false_eq_true, if_false]
    refine fun v => Direct.dumpMapping_mono (Direct.dumpsBelow_map fun f hf => ?_) 0 []
    have hw : f.ty ∈ s.schema.within (.declared id) := by
      simpa [Schema.within, hs] using List.mem_map_of_mem hf
    obtain ⟨arg, e, he⟩ := ha.exists_fieldExpr f hf
    exact hU.below_dumpField hc (h f.ty hw) he hN
  | dumpSequence _ _ hs ha =>
    simp only [hs, if_true]
    refine Direct.dumpSequence_mono <| Direct.dumpsBelow_map fun f hf => ?_
    have hw : f.ty ∈ s.schema.within (.declared id) := by
      simpa [Schema.within, hs] using List.mem_map_of_mem hf
    obtain ⟨arg, e, he⟩ := ha.exists_fieldExpr f hf
    exact hU.below_dumpField hc (h f.ty hw) he hN
  | union _ hs ha =>
    simp only [hs]
    refine Dump.union_mono <| forall₂_maps fun v hv => ?_
    have hw : v.ty ∈ s.schema.within (.declared id) := by
      simpa [Schema.within, hs] using List.mem_map_of_mem hv
    obtain ⟨e, _, he⟩ := exists_of_forall₂ ha v hv
    exact h v.ty hw _ e he N (by omega)
  | dumpTuple _ _ hs =>
    rcases s.schema.shape_declared id with ⟨_, _, h⟩ | ⟨_, h⟩ | h | h <;> simp [hs] at h
  | loadMapping hd' | loadSequence hd' | loadTuple hd' => cases hd.symm.trans hd'
  | value hv => exact absurd ⟨hh, hp⟩ hv

-- Direct dumping does what the procedures do that nest enough calls. Each declared type costs the
-- calls for the tuples in one of its fields and for the slot of it.
theorem direct_below_dumpInline (hc : Compilation s root source name?) (hd : s.direction = .dump)
    (hU : DumpsTargets s name? U) (M : Nat) : ∀ (d : Nat) (t : Ty), callsOf s.schema d t ≤ M →
    DumpsInline s name? U d M t := by
  induction M using Nat.strongRecOn with
  | ind M ih =>
    intro d t hM arg e he N hN
    unfold callsOf at hM ih
    cases he with
    | hook hh =>
      obtain ⟨f, hf, _⟩ := Settings.dump?_of_hook? hd hh
      rw [Direct.dump_hooked hf, dumpInline_hooked hf]
      exact .refl _
    | leaf hh hl =>
      rcases hl with ⟨k, hk⟩ | hk
      case inl =>
        rw [Schema.eq_scalar_of_shape hk]
        exact .refl _
      case inr => exact DumpsInline.of_dynamic hk d _
    | call hh hp hn =>
      have hlt := t.length_parts_pos
      obtain ⟨N, rfl⟩ : ∃ N', N = N' + 1 := ⟨N - 1, by omega⟩
      have hhooks := (Settings.dump?_eq_none_iff hd).mpr hh
      rw [dumpInline_call hp, Direct.dumpHooked, hhooks]
      apply hU.below_step hn
      obtain ⟨p, _, _, hfor⟩ := hc.covered _ _ hn
      rcases hp.tuple_or_declared with ⟨ts, rfl⟩ | ⟨id, rfl, _⟩
      case inl =>
        refine DumpsInline.of_tuple hd hh hfor.body (K := M - 1) (fun t ht => ?_) (by omega)
        have hlt := Ty.length_parts_lt_tuple ht
        exact ih (M - 1) (by omega) d t (by omega)
      case inr =>
        cases d with
        | zero => exact Direct.dumpHooked_mono fun _ => .inl rfl
        | succ d =>
          rw [Nat.add_one_mul] at hM
          refine DumpsInline.of_declared hc hd hU hh hp hfor.body (K := M - 2) (fun t ht => ?_)
            (by omega)
          have hle := Schema.length_parts_le ht
          exact ih (M - 2) (by omega) d t (by omega)
    | @optional u _ x e hh he =>
      have := u.length_parts_pos
      simp only [Ty.parts, List.length_cons] at hM
      refine Direct.dumpHooked_mono <| Dump.optional_mono ?_
      exact ih (M - 1) (by omega) d u (by omega) _ e he N (by omega)
    | @boxed u _ x e hh he =>
      have := u.length_parts_pos
      simp only [Ty.parts, List.length_cons] at hM
      refine Direct.dumpHooked_mono <| Dump.boxed_mono ?_
      exact ih (M - 1) (by omega) d u (by omega) _ e he N (by omega)
    | @list k u _ x e hh he =>
      have := u.length_parts_pos
      simp only [Ty.parts, List.length_cons] at hM
      refine Direct.dumpHooked_mono <| Dump.list_mono ?_
      exact ih (M - 1) (by omega) d u (by omega) _ e he N (by omega)
    | @map k u v _ x y e f hh hk he =>
      have := u.length_parts_pos
      simp only [Ty.parts, List.length_cons, List.length_append] at hM
      refine Direct.dumpHooked_mono <| Dump.map_mono ?_ ?_
      · exact ih (M - 1) (by omega) d u (by omega) _ e hk N (by omega)
      · exact ih (M - 1) (by omega) d v (by omega) _ f he N (by omega)

-- The procedure of the root goes on as long as direct dumping.
theorem DumpsTargets.direct_below_root (hU : DumpsTargets s name? U)
    (hc : Compilation s root source name?) (hd : s.direction = .dump) (d : Nat) :
    ∃ N, (Direct.dump s.schema s.hooks s.options d root).Below
      (U.targetDumps s.schema name? N (.origin root)) := by
  have hin := direct_below_dumpInline hc hd hU (callsOf s.schema d root) d root (Nat.le_refl _)
  by_cases hp : s.hook? root = none ∧ s.schema.HasProcedure root
  case pos =>
    refine ⟨callsOf s.schema d root, .trans (hin (.var "o") _ (.call hp.left hp.right hc.entry) _
      (Nat.le_refl _)) ?_⟩
    have hhooks := (Settings.dump?_eq_none_iff hd).mpr hp.left
    rw [dumpInline_call hp.right, Direct.dumpHooked, hhooks]
    exact .refl _
  case neg =>
    refine ⟨callsOf s.schema d root + 1, hU.below_step hc.entry ?_⟩
    rw [dump_origin_of_not (by rwa [Settings.dump?_eq_none_iff hd])]
    obtain ⟨p, _, _, hfor⟩ := hc.covered _ _ hc.entry
    have hbody := hfor.body
    generalize p.body = body at hbody
    cases hbody with
    | value _ he => exact hin _ _ he _ (Nat.le_refl _)
    | loadMapping _ hh hs | loadSequence _ hh hs | loadTuple _ hh hs | dumpMapping _ hh hs
    | dumpSequence _ hh hs | dumpTuple _ hh hs | union hh hs =>
      exact absurd ⟨hh, by simp [Schema.HasProcedure, hs]⟩ hp

-- The procedure of the root ends as direct dumping does, if that may nest enough declared types.
theorem DumpsTargets.dump_eq_direct (hU : DumpsTargets s name? U)
    (hc : Compilation s root source name?) (hd : s.direction = .dump) {i : Nat}
    (hi : U.slots.dump? source.entry = some i) (v : Value) :
    ∃ N, ∀ d, N ≤ d → (U.dump s.schema i v).outcome.untrailed =
      (Direct.dump s.schema s.hooks s.options d root v).outcome.untrailed := by
  have hcall (n : Nat) : U.targetDumps s.schema name? n (.origin root) = U.callDump s.schema n i := by
    unfold CompiledUnit.targetDumps calledDump
    rw [hc.entry, Option.bind_some, hi]
  refine ⟨U.dumpBudget v + 2, fun d hN => Run.Below.antisymm ?_ ?_⟩
  · have hdump : U.dump s.schema i v = U.callDump s.schema (U.dumpBudget v + 1) i v := by
      simp only [CompiledUnit.dump, CompiledUnit.callDump]
    rw [hdump, ← hcall]
    exact (hU.below_direct _ _ v).trans <| Direct.dump_mono hN root v
  · obtain ⟨N, hbelow⟩ := hU.direct_below_root hc hd d
    exact (hcall N ▸ hbelow v).trans (U.callDump_upto_dump s.schema N i v).below

end Unit
end TreeCodec
