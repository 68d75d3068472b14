import TreeCodec.Proofs.DirectDepth
import TreeCodec.Proofs.LoadCalls
import TreeCodec.Proofs.LoadUnit

/-!
The procedures of a unit and direct loading go on where the other one does, with enough depth.
-/
namespace TreeCodec

open Target

section Direct

variable {S : Schema} {hooks : Hooks} {options : Options}

-- Direct loading as the conversion of targets.
abbrev directLoads (S : Schema) (hooks : Hooks) (options : Options) (d : Nat) (key : GuardKey) :
    Load.Rule :=
  Direct.load S hooks options d key.subject

theorem loadInline_below_direct (d : Nat) (t : Ty) :
    (loadInline S hooks (directLoads S hooks options (d + 1)) t).Below
      (Direct.load S hooks options (d + 1) t) := by
  cases t with
  | scalar | dynamic => exact .refl _
  | optional t => exact Direct.loadHooked_mono <| Load.optional_mono (loadInline_below_direct d t)
  | boxed t => exact Direct.loadHooked_mono <| Load.boxed_mono (loadInline_below_direct d t)
  | list _ t => exact Direct.loadHooked_mono <| Load.list_mono (loadInline_below_direct d t)
  | map _ t u =>
    exact Direct.loadHooked_mono <|
      Load.map_mono (loadInline_below_direct d t) (loadInline_below_direct d u)
  | tuple => exact .of_eq (Direct.loadHooked_idem _ _)
  | declared id =>
    unfold loadInline
    split
    case isTrue hk =>
      refine Direct.loadHooked_mono <| .of_eq ?_
      simp only [Direct.loadWithin, Direct.loadDeclared, Schema.shape_of_kind_dynamic hk]
    case isFalse => exact .of_eq (Direct.loadHooked_idem _ _)

theorem loadField_below_direct (d : Nat) (f : Field) :
    (loadField S hooks (directLoads S hooks options (d + 1)) f).Below
      (Direct.load S hooks options (d + 1) f.ty) := by
  unfold loadField
  split
  · exact .refl _
  · exact loadInline_below_direct d f.ty

theorem load_below_direct (d : Nat) (key : GuardKey) :
    (Target.load S hooks options (directLoads S hooks options (d + 1)) key).Below
      (Direct.load S hooks options (d + 2) key.subject) := by
  match key with
  | .arguments ts => exact (loadInline_below_direct d _).trans <| Direct.load_mono (by omega) _
  | .origin t =>
    by_cases hp : hooks.load? t = none ∧ S.HasProcedure t
    case neg =>
      rw [load_origin_of_not hp]
      exact (loadInline_below_direct d t).trans <| Direct.load_mono (by omega) t
    case pos =>
      rcases hp.right.tuple_or_declared with ⟨ts, rfl⟩ | ⟨id, rfl, _⟩
      case inl =>
        have hd : (Direct.load S hooks options (d + 1) (.tuple ts)).Below
            (Direct.load S hooks options (d + 2) (.tuple ts)) := Direct.load_mono (by omega) _
        refine .trans (Direct.loadHooked_mono <| Direct.loadTuple_mono ?_) hd
        rw [Direct.loadTypes_eq_map]
        exact forall₂_maps fun t _ => loadInline_below_direct d t
      case inr =>
        apply Direct.loadHooked_mono
        have hp := hp.right
        unfold Schema.HasProcedure at hp
        cases hs : S.shape (.declared id) <;>
          simp only [hs, loadOrigin, Direct.loadWithin, Direct.loadDeclared] at hp ⊢
        case record fields positional =>
          have hf : Direct.FieldsBelow
              (fields.map fun f => (f, loadField S hooks (directLoads S hooks options (d + 1)) f))
              (fields.map fun f => (f, Direct.load S hooks options (d + 1) f.ty)) :=
            Direct.fieldsBelow_map fun f _ => loadField_below_direct d f
          cases positional
          · exact Direct.loadMapping_mono hf
          · exact Direct.loadSequence_mono hf
        case union variants =>
          exact Load.union_mono <| forall₂_maps fun v _ => loadInline_below_direct d v.ty
        case tuple =>
          rcases S.shape_declared id with ⟨_, _, h⟩ | ⟨_, h⟩ | h | h <;> simp [hs] at h

end Direct

section Unit

variable {s : Settings} {root : Ty} {source : Source} {name? : GuardKey → Option String}
  {U : CompiledUnit}

-- A unit that nests `n` calls does what direct loading does that nests one declared type more.
theorem LoadsTargets.below_direct (hU : LoadsTargets s name? U) (n : Nat) (key : GuardKey) :
    (U.targetLoads s.schema name? n key).Below
      (Direct.load s.schema s.hooks s.options (n + 1) key.subject) := by
  induction n generalizing key with
  | zero =>
    intro input
    refine .inl ?_
    unfold CompiledUnit.targetLoads calledLoad
    cases (name? key).bind U.slots.load? <;> rfl
  | succ n ih =>
    intro input
    cases hk : name? key with
    | none => exact .inl <| by simp [CompiledUnit.targetLoads, calledLoad, hk, Run.unfinished]
    | some name =>
      refine .trans (.of_untrailed_eq (hU.step key name hk n input)) ?_
      exact (Target.load_mono ih key input).trans (load_below_direct n key input)

theorem Assigns.exists_fieldExpr {source : Nat → Field → Operand} {i : Nat} {fs : List Field}
    {stmts : List Stmt} (h : Assigns s name? source i fs stmts) :
    ∀ f ∈ fs, ∃ arg e, FieldExpr s name? f arg e := by
  induction h with
  | nil => nofun
  | cons he _ ih =>
    intro f hf
    rcases List.mem_cons.mp hf with rfl | hf
    · exact ⟨_, _, he⟩
    · exact ih f hf

theorem Direct.load_hooked {S : Schema} {hooks : Hooks} {options : Options} {t : Ty}
    {f : LoadHook} (h : hooks.load? t = some f) (d : Nat) :
    Direct.load S hooks options d t = Load.hook f := by
  cases t <;> simp [Direct.load, Direct.loadType, Direct.loadHooked, h]

-- Where a procedure is called for a target, there is one more call to make.
theorem LoadsTargets.below_step (hU : LoadsTargets s name? U) {key : GuardKey} {name : String}
    (hk : name? key = some name) {rule : Load.Rule} {N : Nat}
    (h : rule.Below
      (Target.load s.schema s.hooks s.options (U.targetLoads s.schema name? N) key)) :
    rule.Below (U.targetLoads s.schema name? (N + 1) key) :=
  fun input => (h input).trans <| .of_untrailed_eq (hU.step key name hk N input).symm

-- Whether direct loading does what the procedures do that nest `K` calls or more, wherever a value of
-- the type is converted.
def LoadsInline (s : Settings) (name? : GuardKey → Option String) (U : CompiledUnit) (d K : Nat)
    (t : Ty) : Prop :=
  ∀ arg e, ExprFor s name? t arg e → ∀ N, K ≤ N →
    (Direct.load s.schema s.hooks s.options d t).Below
      (loadInline s.schema s.hooks (U.targetLoads s.schema name? N) t)

-- A slot costs one call more than the type in it.
theorem LoadsTargets.below_loadField (hc : Compilation s root source name?)
    (hU : LoadsTargets s name? U) {d K : Nat} {f : Field} {arg : Operand} {e : Expr}
    (h : LoadsInline s name? U d K f.ty) (he : FieldExpr s name? f arg e) {N : Nat}
    (hN : K + 1 ≤ N) :
    (Direct.load s.schema s.hooks s.options d f.ty).Below
      (loadField s.schema s.hooks (U.targetLoads s.schema name? N) f) := by
  cases he with
  | inline hp he =>
    simp only [loadField, hp]
    exact h _ e he N (by omega)
  | slot hp hn =>
    simp only [loadField, hp]
    obtain ⟨p, _, _, hfor⟩ := hc.covered _ _ hn
    obtain ⟨N, rfl⟩ : ∃ N', N = N' + 1 := ⟨N - 1, by omega⟩
    apply hU.below_step hn
    have hbody := hfor.body
    generalize p.body = body at hbody
    cases hbody with
    | slot he => exact h _ _ he N (by omega)

theorem LoadsInline.of_dynamic {t : Ty} (ht : s.schema.shape t = .dynamic) (d : Nat)
    (call : GuardKey → Load.Rule) :
    (Direct.load s.schema s.hooks s.options d t).Below (loadInline s.schema s.hooks call t) := by
  rw [loadInline_dynamic ht]
  rcases Schema.dynamic_or_declared ht with rfl | ⟨id, rfl⟩
  case inl => exact .refl _
  case inr =>
    apply Direct.loadHooked_mono
    cases d with
    | zero => exact fun _ => .inl rfl
    | succ d => exact .of_eq <| by simp only [Direct.loadWithin, Direct.loadDeclared, ht]

theorem LoadsInline.of_tuple (hd : s.direction = .load) {ts : List Ty} {body : List Stmt}
    (hh : s.hook? (.tuple ts) = none) (hbody : BodyFor s name? (.origin (.tuple ts)) body) {d K : Nat}
    (h : ∀ t ∈ ts, LoadsInline s name? U d K t) {N : Nat} (hN : K ≤ N) :
    (Direct.load s.schema s.hooks s.options d (.tuple ts)).Below
      (Target.load s.schema s.hooks s.options (U.targetLoads s.schema name? N)
        (.origin (.tuple ts))) := by
  apply Direct.loadHooked_mono
  cases hbody with
  | loadTuple _ _ hs ha =>
    cases hs
    apply Direct.loadTuple_mono
    rw [Direct.loadTypes_eq_map]
    refine forall₂_maps fun t ht => ?_
    have ⟨arg, e, he⟩ := ha.exists_fieldExpr (.ofElement t) (List.mem_map_of_mem ht)
    cases he with
    | slot hp => nomatch hp
    | inline _ he => exact h t ht arg e he N hN
  | loadMapping _ _ hs | loadSequence _ _ hs | dumpMapping _ _ hs | dumpSequence _ _ hs
  | union _ hs => nomatch hs
  | dumpTuple hd' => exact absurd (hd.symm.trans hd') nofun
  | value hv => exact absurd ⟨hh, trivial⟩ hv

-- The fields of a record and the variants of a union nest one declared type less.
theorem LoadsInline.of_declared (hc : Compilation s root source name?) (hd : s.direction = .load)
    (hU : LoadsTargets s name? U) {id : String} {body : List Stmt}
    (hh : s.hook? (.declared id) = none) (hp : s.schema.HasProcedure (.declared id))
    (hbody : BodyFor s name? (.origin (.declared id)) body) {d K : Nat}
    (h : ∀ t ∈ s.schema.within (.declared id), LoadsInline s name? U d K t) {N : Nat}
    (hN : K + 1 ≤ N) :
    (Direct.load s.schema s.hooks s.options (d + 1) (.declared id)).Below
      (Target.load s.schema s.hooks s.options (U.targetLoads s.schema name? N)
        (.origin (.declared id))) := by
  apply Direct.loadHooked_mono
  simp only [Direct.loadWithin, Direct.loadDeclared, loadOrigin]
  cases hbody with
  | loadMapping _ _ hs ha =>
    simp only [hs, Bool.false_eq_true, if_false]
    refine Direct.loadMapping_mono <| Direct.fieldsBelow_map fun f hf => ?_
    have hw : f.ty ∈ s.schema.within (.declared id) := by
      simpa [Schema.within, hs] using List.mem_map_of_mem hf
    obtain ⟨arg, e, he⟩ := ha.exists_fieldExpr f hf
    exact hU.below_loadField hc (h f.ty hw) he hN
  | loadSequence _ _ hs ha =>
    simp only [hs, if_true]
    refine Direct.loadSequence_mono <| Direct.fieldsBelow_map fun f hf => ?_
    have hw : f.ty ∈ s.schema.within (.declared id) := by
      simpa [Schema.within, hs] using List.mem_map_of_mem hf
    obtain ⟨arg, e, he⟩ := ha.exists_fieldExpr f hf
    exact hU.below_loadField hc (h f.ty hw) he hN
  | union _ hs ha =>
    simp only [hs]
    refine Load.union_mono <| forall₂_maps fun v hv => ?_
    have hw : v.ty ∈ s.schema.within (.declared id) := by
      simpa [Schema.within, hs] using List.mem_map_of_mem hv
    obtain ⟨e, _, he⟩ := exists_of_forall₂ ha v hv
    exact h v.ty hw _ e he N (by omega)
  | loadTuple _ _ hs =>
    rcases s.schema.shape_declared id with ⟨_, _, h⟩ | ⟨_, h⟩ | h | h <;> simp [hs] at h
  | dumpMapping hd' | dumpSequence hd' | dumpTuple hd' => cases hd.symm.trans hd'
  | value hv => exact absurd ⟨hh, hp⟩ hv

-- Direct loading does what the procedures do that nest enough calls. Each declared type costs the
-- calls for the tuples in one of its fields and for the slot of it.
theorem direct_below_loadInline (hc : Compilation s root source name?) (hd : s.direction = .load)
    (hU : LoadsTargets s name? U) (M : Nat) : ∀ (d : Nat) (t : Ty), callsOf s.schema d t ≤ M →
    LoadsInline s name? U d M t := by
  induction M using Nat.strongRecOn with
  | ind M ih =>
    intro d t hM arg e he N hN
    unfold callsOf at hM ih
    cases he with
    | hook hh =>
      obtain ⟨f, hf, _⟩ := Settings.load?_of_hook? hd hh
      rw [Direct.load_hooked hf, loadInline_hooked hf]
      exact .refl _
    | leaf hh hl =>
      rcases hl with ⟨k, hk⟩ | hk
      case inl =>
        rw [Schema.eq_scalar_of_shape hk]
        exact .refl _
      case inr => exact LoadsInline.of_dynamic hk d _
    | call hh hp hn =>
      have hlt := t.length_parts_pos
      obtain ⟨N, rfl⟩ : ∃ N', N = N' + 1 := ⟨N - 1, by omega⟩
      have hhooks := (Settings.load?_eq_none_iff hd).mpr hh
      rw [loadInline_call hp, Direct.loadHooked, hhooks]
      apply hU.below_step hn
      obtain ⟨p, _, _, hfor⟩ := hc.covered _ _ hn
      rcases hp.tuple_or_declared with ⟨ts, rfl⟩ | ⟨id, rfl, _⟩
      case inl =>
        refine LoadsInline.of_tuple hd hh hfor.body (K := M - 1) (fun t ht => ?_) (by omega)
        have hlt := Ty.length_parts_lt_tuple ht
        exact ih (M - 1) (by omega) d t (by omega)
      case inr =>
        cases d with
        | zero => exact Direct.loadHooked_mono fun _ => .inl rfl
        | succ d =>
          rw [Nat.add_one_mul] at hM
          refine LoadsInline.of_declared hc hd hU hh hp hfor.body (K := M - 2) (fun t ht => ?_)
            (by omega)
          have hle := Schema.length_parts_le ht
          exact ih (M - 2) (by omega) d t (by omega)
    | @optional u _ x e hh he =>
      have := u.length_parts_pos
      simp only [Ty.parts, List.length_cons] at hM
      refine Direct.loadHooked_mono <| Load.optional_mono ?_
      exact ih (M - 1) (by omega) d u (by omega) _ e he N (by omega)
    | @boxed u _ x e hh he =>
      have := u.length_parts_pos
      simp only [Ty.parts, List.length_cons] at hM
      refine Direct.loadHooked_mono <| Load.boxed_mono ?_
      exact ih (M - 1) (by omega) d u (by omega) _ e he N (by omega)
    | @list k u _ x e hh he =>
      have := u.length_parts_pos
      simp only [Ty.parts, List.length_cons] at hM
      refine Direct.loadHooked_mono <| Load.list_mono ?_
      exact ih (M - 1) (by omega) d u (by omega) _ e he N (by omega)
    | @map k u v _ x y e f hh hk he =>
      have := u.length_parts_pos
      simp only [Ty.parts, List.length_cons, List.length_append] at hM
      refine Direct.loadHooked_mono <| Load.map_mono ?_ ?_
      · exact ih (M - 1) (by omega) d u (by omega) _ e hk N (by omega)
      · exact ih (M - 1) (by omega) d v (by omega) _ f he N (by omega)

-- The procedure of the root goes on as long as direct loading.
theorem LoadsTargets.direct_below_root (hU : LoadsTargets s name? U)
    (hc : Compilation s root source name?) (hd : s.direction = .load) (d : Nat) :
    ∃ N, (Direct.load s.schema s.hooks s.options d root).Below
      (U.targetLoads s.schema name? N (.origin root)) := by
  have hin := direct_below_loadInline hc hd hU (callsOf s.schema d root) d root (Nat.le_refl _)
  by_cases hp : s.hook? root = none ∧ s.schema.HasProcedure root
  case pos =>
    refine ⟨callsOf s.schema d root, .trans (hin (.var "v1") _ (.call hp.left hp.right hc.entry) _
      (Nat.le_refl _)) ?_⟩
    have hhooks := (Settings.load?_eq_none_iff hd).mpr hp.left
    rw [loadInline_call hp.right, Direct.loadHooked, hhooks]
    exact .refl _
  case neg =>
    refine ⟨callsOf s.schema d root + 1, hU.below_step hc.entry ?_⟩
    rw [load_origin_of_not (by rwa [Settings.load?_eq_none_iff hd])]
    obtain ⟨p, _, _, hfor⟩ := hc.covered _ _ hc.entry
    have hbody := hfor.body
    generalize p.body = body at hbody
    cases hbody with
    | value _ he => exact hin _ _ he _ (Nat.le_refl _)
    | loadMapping _ hh hs | loadSequence _ hh hs | loadTuple _ hh hs | dumpMapping _ hh hs
    | dumpSequence _ hh hs | dumpTuple _ hh hs | union hh hs =>
      exact absurd ⟨hh, by simp [Schema.HasProcedure, hs]⟩ hp

-- The procedure of the root ends as direct loading does, if that may nest enough declared types.
theorem LoadsTargets.load_eq_direct (hU : LoadsTargets s name? U)
    (hc : Compilation s root source name?) (hd : s.direction = .load) {i : Nat}
    (hi : U.slots.load? source.entry = some i) (input : Option Tree) :
    ∃ N, ∀ d, N ≤ d → (U.load s.schema i input none).outcome.untrailed =
      (Direct.load s.schema s.hooks s.options d root input).outcome.untrailed := by
  have hcall (n : Nat) : U.targetLoads s.schema name? n (.origin root) = U.callLoad s.schema n i := by
    unfold CompiledUnit.targetLoads calledLoad
    rw [hc.entry, Option.bind_some, hi]
  refine ⟨U.loadBudget input + 2, fun d hN => Run.Below.antisymm ?_ ?_⟩
  · have hload : U.load s.schema i input none =
        U.callLoad s.schema (U.loadBudget input + 1) i input := by
      simp only [CompiledUnit.load, CompiledUnit.callLoad]
    rw [hload, ← hcall]
    exact (hU.below_direct _ _ input).trans <| Direct.load_mono hN root input
  · obtain ⟨N, hbelow⟩ := hU.direct_below_root hc hd d
    exact (hcall N ▸ hbelow input).trans (U.callLoad_upto_load s.schema N i input).below

end Unit

-- A record with a record of its own type in it.
def chain : Schema where
  declarations := [
    ("Chain", {
      names := .qualified "app" "Chain"
      definition := .record [
        { name := "name", key := "name", ty := .scalar .string },
        { name := "next", key := "next", ty := .optional (.boxed (.declared "Chain")) }] false })]

-- A compiled loader ends as direct loading does, if that may nest enough declared types. Neither ends
-- if the other one does not.
theorem loadOr_eq_direct {S : Schema} {options : Options} {hooks : Hooks} {root : Ty}
    {source : Source} {l : Loader}
    (hs : (compileProcedures S options hooks .load root).result = .ok source)
    (hl : (compileLoader S options hooks root).result = .ok l)
    (hd : ∀ p ∈ source.builder.sealed, p.HelpersDistinct ⟨S, .load, hooks, options⟩)
    (input : Option Tree) :
    ∃ N, ∀ d, N ≤ d → (l.loadOr S input none).outcome.untrailed =
      (Direct.load S hooks options d root input).outcome.untrailed := by
  have ⟨_, hc, hU, hi⟩ := compileLoader_loadsTargets hs hl hd
  exact hU.load_eq_direct hc rfl hi input

theorem loadOr_eq_direct_chain :
    ∃ source l,
      (compileProcedures chain {} {} .load (.declared "Chain")).result = .ok source ∧
      (compileLoader chain {} {} (.declared "Chain")).result = .ok l ∧
      (∀ p ∈ source.builder.sealed, p.HelpersDistinct ⟨chain, .load, {}, {}⟩) ∧
      ∃ N, ∀ d, N ≤ d →
        (l.loadOr chain (some (.object [("name", .text "a")])) none).outcome.untrailed =
          (Direct.load chain {} {} d (.declared "Chain")
            (some (.object [("name", .text "a")]))).outcome.untrailed := by
  have ⟨l, hl⟩ := Compiled.exists_ok (x := compileLoader chain {} {} (.declared "Chain"))
    (by decide +kernel)
  have ⟨source, hs, _⟩ := compileLoader_linked hl
  have hd := Settings.helpersDistinct_of_nodup (s := ⟨chain, .load, {}, {}⟩)
    (by decide +kernel) source hs
  exact ⟨source, l, hs, hl, hd, loadOr_eq_direct hs hl hd _⟩

end TreeCodec
