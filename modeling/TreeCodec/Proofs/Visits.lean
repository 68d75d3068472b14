import Mathlib.Data.List.Dedup
import TreeCodec.Proofs.Entries
import TreeCodec.Proofs.Walk

/-!
Steps of a compilation that go through some places as the walk does: the targets that they reserve
are those that the walk enters, and a foreign type stops them where it stops the walk.
-/
namespace TreeCodec

open CompileM

namespace Guard

-- The targets that are reserved, in the order in which they came.
def keys (g : Guard) : List GuardKey := Keyed.keys g.entries

-- Every target has a name of its own.
structure Proper (g : Guard) : Prop where
  named     : ∀ key name, g.lookup key = some name → name ∈ g.names
  injective : ∀ key key' name, g.lookup key = some name → g.lookup key' = some name → key = key'

variable {g : Guard} {key : GuardKey}

theorem lookup_eq_none_iff : g.lookup key = none ↔ key ∉ g.keys :=
  Keyed.get?_eq_none_iff

theorem mem_keys {name : String} (h : g.lookup key = some name) : key ∈ g.keys := by
  by_contra hn
  simp [lookup_eq_none_iff.mpr hn] at h

theorem keys_reserve (wanted : String) (h : g.lookup key = none) :
    (g.reserve key wanted).2.keys = g.keys ++ [key] := by
  have hn := lookup_eq_none_iff.mp h
  have hput : Keyed.put key (g.reserve key wanted).1 g.entries = g.entries ++ [(key, _)] :=
    Keyed.put_of_not_mem _ fun e he hk => hn <| List.mem_map.mpr ⟨e, he, hk⟩
  show Keyed.keys (Keyed.put key (g.reserve key wanted).1 g.entries) = _
  rw [hput]
  simp [keys, Keyed.keys]

theorem Proper.reserve (hg : g.Proper) (wanted : String) : (g.reserve key wanted).2.Proper := by
  have hfree := g.reserve_not_mem key wanted
  constructor
  case named =>
    intro key' name hl
    rw [lookup_reserve] at hl
    rw [names_reserve]
    split at hl
    · exact Option.some.inj hl ▸ List.mem_cons_self ..
    · exact List.mem_cons_of_mem _ <| hg.named key' name hl
  case injective =>
    intro key₁ key₂ name h₁ h₂
    rw [lookup_reserve] at h₁ h₂
    split at h₁ <;> split at h₂
    case isTrue.isTrue he₁ he₂ => exact he₁.trans he₂.symm
    case isTrue.isFalse => exact absurd (hg.named _ _ h₂) (Option.some.inj h₁ ▸ hfree)
    case isFalse.isTrue => exact absurd (hg.named _ _ h₁) (Option.some.inj h₂ ▸ hfree)
    case isFalse.isFalse => exact hg.injective _ _ _ h₁ h₂

end Guard

-- An error that is neither about a type nor about the depth.
def CodegenError.Internal : CodegenError → Prop
  | unsupported .. | tooDeep => False
  | _ => True

-- Among the targets of a root, which are listed, at most `n` are not reserved.
structure Pending (targets : List GuardKey) (n : Nat) (c : Context) : Prop where
  proper    : c.guard.Proper
  remaining : c.guard.remaining targets ≤ n

-- A compilation is stopped by the foreign type that stops the walk.
def Stopped (s : Settings) (ps : List Place) (met : List GuardKey) (e : CodegenError) : Prop :=
  e.Internal ∨ ∃ t, Walk s ps met (.error t) ∧ e = .unsupported (s.schema.path t) s.direction

theorem Stopped.imp {s : Settings} {ps qs : List Place} {met met' : List GuardKey}
    {e : CodegenError} (he : Stopped s ps met e)
    (h : ∀ t, Walk s ps met (.error t) → Walk s qs met' (.error t)) :
    Stopped s qs met' e :=
  he.imp_right fun ⟨t, ht, he⟩ => ⟨t, h t ht, he⟩

-- A step goes through some places, and leaves no more than `n` of the targets.
def Visits {α : Type} (s : Settings) (targets : List GuardKey) (n : Nat) (ps : List Place)
    (c : Context) (step : CompileM α) (post : α → Prop) : Prop :=
  Sat step s c
    (fun a c' => post a ∧ Walk s ps c.guard.keys (.ok c'.guard.keys) ∧ Pending targets n c')
    (Stopped s ps c.guard.keys)

namespace Visits

variable {α β : Type} {s : Settings} {targets : List GuardKey} {n : Nat} {ps qs : List Place}
  {c : Context} {post : α → Prop} {postβ : β → Prop}

theorem pure {a : α} (hc : Pending targets n c) (h : post a) :
    Visits s targets n [] c (Pure.pure a) post :=
  Sat.pure ⟨h, .done, hc⟩

-- A step that leaves the guard as it is goes through nothing.
theorem quiet {step : CompileM α} (hc : Pending targets n c)
    (h : Sat step s c (fun a c' => post a ∧ c'.guard = c.guard) CodegenError.Internal) :
    Visits s targets n [] c step post :=
  (h.imp fun _ _ ⟨ha, hg⟩ => ⟨ha, hg ▸ .done, ⟨hg ▸ hc.proper, hg ▸ hc.remaining⟩⟩).imp_fail
    fun _ he => .inl he

theorem bind {x : CompileM α} {f : α → CompileM β} (hx : Visits s targets n ps c x post)
    (hf : ∀ a c', post a → Pending targets n c' → Visits s targets n qs c' (f a) postβ) :
    Visits s targets n (ps ++ qs) c (x >>= f) postβ := by
  refine Sat.bind <| (Sat.imp hx ?ok).imp_fail ?failed
  case ok =>
    intro a c' ⟨ha, hw, hc⟩
    refine (Sat.imp (hf a c' ha hc) ?_).imp_fail fun e he => Stopped.imp he fun _ => hw.append
    exact fun b c'' ⟨hb, hw', hc'⟩ => ⟨hb, hw.append hw', hc'⟩
  case failed => exact fun e he => Stopped.imp he fun _ ht => ht.append_error qs

theorem cons {p : Place} {x : CompileM α} {f : α → CompileM β}
    (hx : Visits s targets n [p] c x post)
    (hf : ∀ a c', post a → Pending targets n c' → Visits s targets n qs c' (f a) postβ) :
    Visits s targets n (p :: qs) c (x >>= f) postβ :=
  bind hx hf

-- What comes first, or what follows, may go through nothing.
theorem quiet_bind {x : CompileM α} {f : α → CompileM β} (hx : Visits s targets n [] c x post)
    (hf : ∀ a c', post a → Pending targets n c' → Visits s targets n ps c' (f a) postβ) :
    Visits s targets n ps c (x >>= f) postβ :=
  bind hx hf

theorem bind_quiet {x : CompileM α} {f : α → CompileM β} (hx : Visits s targets n ps c x post)
    (hf : ∀ a c', post a → Pending targets n c' → Visits s targets n [] c' (f a) postβ) :
    Visits s targets n ps c (x >>= f) postβ :=
  List.append_nil ps ▸ bind hx hf

theorem schema {f : Schema → CompileM β} (h : Visits s targets n ps c (f s.schema) postβ) :
    Visits s targets n ps c (CompileM.schema >>= f) postβ :=
  Sat.bind <| Sat.schema h

theorem read {f : Settings → CompileM β} (h : Visits s targets n ps c (f s) postβ) :
    Visits s targets n ps c (MonadReader.read >>= f) postβ :=
  Sat.bind <| Sat.read h

theorem direction {f : Direction → CompileM β} (h : Visits s targets n ps c (f s.direction) postβ) :
    Visits s targets n ps c (CompileM.direction >>= f) postβ :=
  Sat.bind <| Sat.direction h

theorem liftKind {γ : Type} {x : Except KindMismatch γ} {f : γ → CompileM β}
    (h : ∀ a, x = .ok a → Visits s targets n ps c (f a) postβ) :
    Visits s targets n ps c (Compile.liftKind x >>= f) postβ := by
  cases x with
  | ok a => exact h a rfl
  | error e => exact .inl trivial

end Visits

section Primitive

variable {s : Settings} {targets : List GuardKey} {n : Nat} {c : Context}

theorem onBuilder_quiet {α : Type} {op : BuilderM α} (hc : Pending targets n c)
    (h : ∀ e b, op.run c.builder = .error e b → e.Internal) :
    Visits s targets n [] c (onBuilder op) fun _ => True := by
  refine .quiet hc ?_
  unfold Sat onBuilder
  cases hr : op.run c.builder with
  | ok a b => exact ⟨trivial, rfl⟩
  | error e b => exact h e b hr

theorem emit_quiet (hc : Pending targets n c) (stmt : Stmt) :
    Visits s targets n [] c (emit stmt) fun _ => True := by
  refine onBuilder_quiet hc fun e b h => ?_
  obtain ⟨⟨_, _, _, pending⟩, _⟩ := c
  cases pending <;> cases h
  trivial

theorem bind_quiet (hc : Pending targets n c) (name : String) (b : Binding) :
    Visits s targets n [] c (CompileM.bind name b) fun _ => True := by
  refine onBuilder_quiet hc fun e b h => ?_
  obtain ⟨⟨_, _, _, pending⟩, _⟩ := c
  cases pending <;> cases h
  trivial

theorem merge_quiet (hc : Pending targets n c) (other : Builder) :
    Visits s targets n [] c (merge other) fun _ => True := by
  refine onBuilder_quiet hc fun e b h => ?_
  cases hp : other.pending with
  | cons p ps =>
    simp [Builder.merge, hp] at h
    exact h.left ▸ trivial
  | nil =>
    cases hf : other.sealed.find? (fun p => c.builder.isDefined p.name) with
    | some p =>
      simp [Builder.merge, hp, hf] at h
      exact h.left ▸ trivial
    | none => simp [Builder.merge, hp, hf] at h

theorem begin_quiet (hc : Pending targets n c) (name : String) (signature : Signature)
    (locals : Locals) :
    Visits s targets n [] c (onBuilder (Builder.begin name signature locals)) fun _ => True := by
  refine onBuilder_quiet hc fun e b h => ?_
  cases hd : c.builder.isDefined name <;> simp [Builder.begin, hd] at h
  exact h.left ▸ trivial

theorem finish_quiet (hc : Pending targets n c) :
    Visits s targets n [] c (onBuilder Builder.finish) fun _ => True := by
  refine onBuilder_quiet hc fun e b h => ?_
  cases hp : c.builder.pending with
  | nil =>
    simp [Builder.finish, hp] at h
    exact h.left ▸ trivial
  | cons p ps =>
    cases hs : c.builder.isSealed p.name <;> simp [Builder.finish, hp, hs] at h
    exact h.left ▸ trivial

theorem freshBinder_quiet (hc : Pending targets n c) :
    Visits s targets n [] c freshBinder fun _ => True :=
  .quiet hc <| .bind <| .modify <| .bind <| .direction <| .bind <| .get <| .pure ⟨trivial, rfl⟩

-- A procedure is compiled as far as its body is.
theorem procedure_visits {ps : List Place} {step : CompileM Unit} (hc : Pending targets n c)
    (hstep : ∀ c', Pending targets n c' → Visits s targets n ps c' step fun _ => True) :
    Visits s targets n ps c (procedure step) fun _ => True := by
  refine Sat.bind <| Sat.get ?_
  cases hn : c.procedureName with
  | none => exact .inl trivial
  | some name =>
    have hc' : Pending targets n { c with procedureName := some name, seeds := [] } :=
      ⟨hc.proper, hc.remaining⟩
    refine Sat.bind <| Sat.set <| Visits.direction ?_
    refine Visits.quiet_bind (begin_quiet hc' name _ _) fun _ c₁ _ hc₁ => ?_
    refine Sat.bind <| Sat.attempt <| (Sat.imp (hstep c₁ hc₁) ?done).imp_fail ?failed
    case failed =>
      intro e he c'
      refine Sat.bind <| Sat.attempt <| Sat.of_forall (fun _ _ => ?_) fun _ _ => ?_ <;>
        exact Sat.bind <| Sat.ofExcept (fun _ h => nomatch h) fun _ h => Except.error.inj h ▸ he
    case done =>
      intro _ c₂ ⟨_, hw, hc₂⟩
      refine Sat.bind <| Sat.attempt <| (Sat.imp (finish_quiet (s := s) hc₂) ?sealed).imp_fail ?left
      case sealed =>
        intro _ c₃ ⟨_, hw', hc₃⟩
        exact ⟨trivial, List.append_nil ps ▸ hw.append hw', hc₃⟩
      case left =>
        intro e he c₃
        exact Stopped.imp he fun _ ht => List.append_nil ps ▸ hw.append ht

end Primitive

section Helpers

open Compile

variable {s : Settings} {targets : List GuardKey} {n : Nat} {c : Context}

theorem hooked_quiet (hc : Pending targets n c) (t : Ty) (arg : Operand) :
    Visits s targets n [] c (hooked t arg) fun found => found.isSome = (s.hook? t).isSome := by
  refine Sat.bind <| hook_sat ?_
  cases hh : s.hook? t with
  | none => exact Visits.pure hc rfl
  | some b =>
    refine Visits.schema <| .quiet_bind (bind_quiet hc _ b) fun _ c' _ hc' => ?_
    exact Visits.pure hc' rfl

theorem leaf_quiet (hc : Pending targets n c) (t : Ty) (arg : Operand) :
    Visits s targets n [] c (leaf t arg) fun _ => True :=
  .schema <| .bind (bind_quiet hc _ _) fun _ _ _ hc' => .pure hc' trivial

theorem bindHelper_quiet (hc : Pending targets n c) (kind : String) (t : Ty) :
    Visits s targets n [] c (bindHelper kind t) fun _ => True :=
  .schema <| .bind (bind_quiet hc _ _) fun _ _ _ hc' => .pure hc' trivial

theorem inner_quiet (hc : Pending targets n c) (t : Ty) (parent : Descriptor) :
    Visits s targets n [] c (inner t parent) (·.2.ty = t) :=
  .schema <| .bind (freshBinder_quiet hc) fun _ _ _ hc' => .pure hc' rfl

end Helpers

end TreeCodec
