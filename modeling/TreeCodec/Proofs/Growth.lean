import TreeCodec.Proofs.Step

/-!
How a compilation goes on: statements and local names are added to the procedure that is being
compiled, targets are reserved, and every target that was reserved has its procedure in the end.
-/
namespace TreeCodec

section Mono

variable {s : Settings} {name? name?' : GuardKey → Option String}
  (h : ∀ key p, name? key = some p → name?' key = some p)
include h

theorem ExprFor.mono {t : Ty} {arg : Operand} {e : Expr} (he : ExprFor s name? t arg e) :
    ExprFor s name?' t arg e := by
  induction he with
  | hook hh => exact .hook hh
  | leaf hh hl => exact .leaf hh hl
  | call hh hp hn => exact .call hh hp (h _ _ hn)
  | optional hh _ ih => exact .optional hh ih
  | boxed hh _ ih => exact .boxed hh ih
  | list hh _ ih => exact .list hh ih
  | map hh _ _ ihk ihv => exact .map hh ihk ihv

theorem FieldExpr.mono {f : Field} {arg : Operand} {e : Expr} (he : FieldExpr s name? f arg e) :
    FieldExpr s name?' f arg e := by
  cases he with
  | slot hp hn => exact .slot hp (h _ _ hn)
  | inline hp he => exact .inline hp (he.mono h)

theorem Alternatives.mono {x : String} {variants : List Variant} {es : List Expr}
    (he : Alternatives s name? x variants es) : Alternatives s name?' x variants es :=
  he.imp fun _ _ he => ExprFor.mono h he

theorem Assigns.mono {source : Nat → Field → Operand} {i : Nat} {fs : List Field}
    {stmts : List Stmt} (ha : Assigns s name? source i fs stmts) :
    Assigns s name?' source i fs stmts := by
  induction ha with
  | nil => exact .nil
  | cons he _ ih => exact .cons (he.mono h) ih

theorem Outputs.mono {source : Nat → Field → Operand} {put : Field → Expr → Stmt} {i : Nat}
    {fs : List Field} {stmts : List Stmt} (ho : Outputs s name? source put i fs stmts) :
    Outputs s name?' source put i fs stmts := by
  induction ho with
  | nil => exact .nil
  | cons he _ ih => exact .cons (he.mono h) ih

theorem BodyFor.mono {key : GuardKey} {body : List Stmt} (hb : BodyFor s name? key body) :
    BodyFor s name?' key body := by
  cases hb with
  | loadMapping hd hh hs ha => exact .loadMapping hd hh hs (ha.mono h)
  | loadSequence hd hh hs ha => exact .loadSequence hd hh hs (ha.mono h)
  | loadTuple hd hh hs ha => exact .loadTuple hd hh hs (ha.mono h)
  | dumpMapping hd hh hs ho => exact .dumpMapping hd hh hs (ho.mono h)
  | dumpSequence hd hh hs ho => exact .dumpSequence hd hh hs (ho.mono h)
  | dumpTuple hd hh hs ho => exact .dumpTuple hd hh hs (ho.mono h)
  | union hh hs ha => exact .union hh hs (ha.mono h)
  | value hn he => exact .value hn (he.mono h)
  | slot he => exact .slot (he.mono h)

theorem ProcedureFor.mono {key : GuardKey} {p : Procedure} (hp : ProcedureFor s name? key p) :
    ProcedureFor s name?' key p where
  signature := hp.signature
  body      := hp.body.mono h
  locals    := hp.locals

end Mono

-- A procedure with more statements and local names.
def Procedure.extend (p : Procedure) (stmts : List Stmt) (bound : List (String × Binding)) :
    Procedure :=
  { p with body := p.body ++ stmts, locals := Locals.bindAll p.locals bound }

theorem Procedure.extend_nil (p : Procedure) : p.extend [] [] = p := by
  simp [extend, Locals.bindAll]

theorem Procedure.extend_extend (p : Procedure) (stmts stmts' : List Stmt)
    (bound bound' : List (String × Binding)) :
    (p.extend stmts bound).extend stmts' bound' = p.extend (stmts ++ stmts') (bound ++ bound') := by
  simp [extend, Locals.bindAll, List.foldl_append]

-- From one guard to a later one the procedures `new` were made: those of the targets that were
-- reserved in between, under names that were free.
structure Grows (s : Settings) (g g' : Guard) (new : List Procedure) : Prop where
  names    : g.names ⊆ g'.names
  kept     : ∀ key name, g.lookup key = some name → g'.lookup key = some name
  covered  : ∀ key name, g.lookup key = none → g'.lookup key = some name →
    ∃ p ∈ new, p.name = name ∧ ProcedureFor s g'.lookup key p
  made     : ∀ p ∈ new, ∃ key, g.lookup key = none ∧ g'.lookup key = some p.name ∧
    ProcedureFor s g'.lookup key p
  fresh    : ∀ p ∈ new, p.name ∉ g.names
  reserved : ∀ p ∈ new, p.name ∈ g'.names
  distinct : (new.map Procedure.name).Nodup

namespace Grows

variable {s : Settings} {g g₁ g₂ : Guard} {new new₁ new₂ : List Procedure}

theorem refl (s : Settings) (g : Guard) : Grows s g g [] where
  names    := List.Subset.refl _
  kept     := fun _ _ h => h
  covered  := fun _ _ h h' => by simp [h] at h'
  made     := by simp
  fresh    := by simp
  reserved := by simp
  distinct := by simp

theorem trans (h₁ : Grows s g g₁ new₁) (h₂ : Grows s g₁ g₂ new₂) :
    Grows s g g₂ (new₁ ++ new₂) where
  names    := List.Subset.trans h₁.names h₂.names
  kept     := fun key name h => h₂.kept key name (h₁.kept key name h)
  covered  := by
    intro key name hn hs
    cases h : g₁.lookup key with
    | none =>
      have ⟨p, hp, hname, hfor⟩ := h₂.covered key name h hs
      exact ⟨p, List.mem_append_right _ hp, hname, hfor⟩
    | some name' =>
      have ⟨p, hp, hname, hfor⟩ := h₁.covered key name' hn h
      have he : name' = name := Option.some.inj <| (h₂.kept key name' h).symm.trans hs
      exact ⟨p, List.mem_append_left _ hp, hname.trans he, hfor.mono h₂.kept⟩
  made     := by
    intro p hp
    rcases List.mem_append.mp hp with hp | hp
    · have ⟨key, hn, hs, hfor⟩ := h₁.made p hp
      exact ⟨key, hn, h₂.kept _ _ hs, hfor.mono h₂.kept⟩
    · have ⟨key, hn, hs, hfor⟩ := h₂.made p hp
      refine ⟨key, ?_, hs, hfor⟩
      cases h : g.lookup key with
      | none => rfl
      | some name => exact absurd (h₁.kept key name h) (by simp [hn])
  fresh    := by
    intro p hp hm
    rcases List.mem_append.mp hp with hp | hp
    · exact h₁.fresh p hp hm
    · exact h₂.fresh p hp (h₁.names hm)
  reserved := by
    intro p hp
    rcases List.mem_append.mp hp with hp | hp
    · exact h₂.names <| h₁.reserved p hp
    · exact h₂.reserved p hp
  distinct := by
    rw [List.map_append]
    refine List.nodup_append.mpr ⟨h₁.distinct, h₂.distinct, fun name h name' h' he => ?_⟩
    have ⟨p, hp, hpn⟩ := List.mem_map.mp h
    have ⟨q, hq, hqn⟩ := List.mem_map.mp h'
    exact h₂.fresh q hq <| by rw [hqn, ← he, ← hpn]; exact h₁.reserved p hp

end Grows

-- A step goes from one context to another, adds to the procedure that is being compiled, and makes
-- the procedures of the targets that it reserves.
structure Extends (s : Settings) (c : Context) (stmts : List Stmt)
    (bound : List (String × Binding)) (c' : Context) : Prop where
  pending : c'.builder.pending = c.builder.pending.modifyHead (·.extend stmts bound)
  grown   : ∃ new, c'.builder.sealed = c.builder.sealed ++ new ∧ Grows s c.guard c'.guard new
  indexed : c.builder.Indexed → c'.builder.Indexed

namespace Extends

variable {s : Settings} {c c' c₁ c₂ : Context} {stmts stmts₁ stmts₂ : List Stmt}
  {bound bound₁ bound₂ : List (String × Binding)}

theorem trans (h₁ : Extends s c stmts₁ bound₁ c₁) (h₂ : Extends s c₁ stmts₂ bound₂ c₂) :
    Extends s c (stmts₁ ++ stmts₂) (bound₁ ++ bound₂) c₂ where
  pending := by
    rw [h₂.pending, h₁.pending]
    cases c.builder.pending <;> simp [Procedure.extend_extend]
  grown   := by
    have ⟨new₁, he₁, hg₁⟩ := h₁.grown
    have ⟨new₂, he₂, hg₂⟩ := h₂.grown
    exact ⟨new₁ ++ new₂, by rw [he₂, he₁, List.append_assoc], hg₁.trans hg₂⟩
  indexed := fun h => h₂.indexed (h₁.indexed h)

theorem kept (h : Extends s c stmts bound c') (key : GuardKey) (name : String)
    (hs : c.guard.lookup key = some name) : c'.guard.lookup key = some name :=
  have ⟨_, _, hg⟩ := h.grown
  hg.kept key name hs

-- The builder and the guard decide.
theorem of_same (hb : c'.builder = c.builder) (hg : c'.guard = c.guard) :
    Extends s c [] [] c' where
  pending := by rw [hb]; cases c.builder.pending <;> simp [Procedure.extend_nil]
  grown   := ⟨[], by simp [hb], by rw [hg]; exact .refl s _⟩
  indexed := fun h => hb ▸ h

end Extends

namespace Context

-- The context after more was added to its procedure.
def extend (c : Context) (stmts : List Stmt) (bound : List (String × Binding)) : Context :=
  { c with builder :=
    { c.builder with pending := c.builder.pending.modifyHead (·.extend stmts bound) } }

theorem extends_extend (s : Settings) (c : Context) (stmts : List Stmt)
    (bound : List (String × Binding)) : Extends s c stmts bound (c.extend stmts bound) where
  pending := rfl
  grown   := ⟨[], by simp [extend], .refl s _⟩
  indexed := fun h => h

end Context

-- The number of keys that are not reserved.
def Guard.remaining (keys : List GuardKey) (g : Guard) : Nat :=
  keys.countP fun key => (g.lookup key).isNone

-- No procedure has a name that is still free, and at most `n` of the keys are not reserved.
structure Ready (keys : List GuardKey) (n : Nat) (c : Context) : Prop where
  sealed    : ∀ p ∈ c.builder.sealed, p.name ∈ c.guard.names
  pending   : ∀ p ∈ c.builder.pending, p.name ∈ c.guard.names
  indexed   : c.builder.Indexed
  remaining : c.guard.remaining keys ≤ n

-- A procedure is being compiled.
structure Open (keys : List GuardKey) (n : Nat) (c : Context) : Prop extends Ready keys n c where
  opened : c.builder.pending ≠ []

section Ready

variable {s : Settings} {keys : List GuardKey} {n : Nat} {c c' : Context} {stmts : List Stmt}
  {bound : List (String × Binding)}

theorem Grows.remaining_le {g g' : Guard} {new : List Procedure} (h : Grows s g g' new) :
    g'.remaining keys ≤ g.remaining keys := by
  refine List.countP_mono_left fun key _ hn => ?_
  cases hg : g.lookup key with
  | none => rfl
  | some name => simp [h.kept key name hg] at hn

theorem Ready.extends (h : Ready keys n c) (he : Extends s c stmts bound c') :
    Ready keys n c' := by
  have ⟨new, hs, hg⟩ := he.grown
  constructor
  case sealed =>
    intro p hp
    rw [hs] at hp
    rcases List.mem_append.mp hp with hp | hp
    · exact hg.names (h.sealed p hp)
    · exact hg.reserved p hp
  case pending =>
    intro p hp
    rw [he.pending] at hp
    cases hc : c.builder.pending with
    | nil => simp [hc] at hp
    | cons q rest =>
      have hq : q.name ∈ c'.guard.names := hg.names (h.pending q (by simp [hc]))
      simp only [hc, List.modifyHead_cons, List.mem_cons] at hp
      rcases hp with rfl | hp
      · exact hq
      · exact hg.names (h.pending p (by simp [hc, hp]))
  case indexed => exact he.indexed h.indexed
  case remaining => exact Nat.le_trans hg.remaining_le h.remaining

theorem Open.extends (h : Open keys n c) (he : Extends s c stmts bound c') : Open keys n c' where
  toReady := h.toReady.extends he
  opened  := by
    have := h.opened
    rw [he.pending]
    cases hc : c.builder.pending <;> simp_all

end Ready

end TreeCodec
