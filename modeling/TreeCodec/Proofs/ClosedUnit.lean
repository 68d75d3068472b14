import Mathlib.Logic.Relation
import TreeCodec.Proofs.Traversal

/-!
The procedures of a compilation: one for each target, and no calls that lead out of them.
-/
namespace TreeCodec

-- The procedures that the statements of a body call.
def bodyCalls (body : List Stmt) : List String :=
  body.flatMap fun stmt => stmt.exprs.flatMap Expr.calls

theorem Expr.callsList_eq (es : List Expr) : callsList es = es.flatMap calls := by
  induction es with
  | nil => rfl
  | cons e es ih => rw [callsList, ih, List.flatMap_cons]

section Calls

variable {s : Settings} {name? : GuardKey → Option String}

-- An expression that converts what stands at a place.
inductive PlaceExpr (s : Settings) (name? : GuardKey → Option String) : Place → Expr → Prop
  | value {t : Ty} {arg : Operand} {e : Expr} :
    ExprFor s name? t arg e → PlaceExpr s name? (.value t) e
  | slot {t : Ty} {arg : Operand} {p : String} :
    name? (.arguments [t]) = some p → PlaceExpr s name? (.slot t) (.call p arg)

-- The expressions of a body convert the places one after the other.
def Converted (s : Settings) (name? : GuardKey → Option String) (ps : List Place)
    (body : List Stmt) : Prop :=
  ∃ es, List.Forall₂ (PlaceExpr s name?) ps es ∧ bodyCalls body = es.flatMap Expr.calls

theorem FieldExpr.placeExpr {f : Field} {arg : Operand} {e : Expr}
    (h : FieldExpr s name? f arg e) : PlaceExpr s name? (.ofField f) e := by
  cases h with
  | slot hp hn => simpa [Place.ofField, hp] using .slot hn
  | inline hp he => simpa [Place.ofField, hp] using .value he

theorem Assigns.converted {source : Nat → Field → Operand} {i : Nat} {fs : List Field}
    {stmts : List Stmt} (h : Assigns s name? source i fs stmts) :
    Converted s name? (fs.map .ofField) stmts := by
  induction h with
  | nil => exact ⟨[], .nil, rfl⟩
  | cons he _ ih =>
    have ⟨es, hes, hcalls⟩ := ih
    exact ⟨_, .cons he.placeExpr hes, by simp [bodyCalls, Stmt.exprs, ← hcalls]⟩

theorem Outputs.converted {source : Nat → Field → Operand} {put : Field → Expr → Stmt}
    (hput : ∀ f e, (put f e).exprs = [e]) {i : Nat} {fs : List Field} {stmts : List Stmt}
    (h : Outputs s name? source put i fs stmts) : Converted s name? (fs.map .ofField) stmts := by
  induction h with
  | nil => exact ⟨[], .nil, rfl⟩
  | cons he _ ih =>
    have ⟨es, hes, hcalls⟩ := ih
    exact ⟨_, .cons he.placeExpr hes, by simp [bodyCalls, hput, ← hcalls]⟩

-- Statements without expressions may stand around.
theorem Converted.around {ps qs : List Place} {stmts after : List Stmt}
    (h : Converted s name? ps stmts) (before : List Stmt) (hq : qs = ps)
    (hb : bodyCalls before = []) (ha : bodyCalls after = []) :
    Converted s name? qs (before ++ (stmts ++ after)) := by
  have ⟨es, hes, hcalls⟩ := h
  refine ⟨es, hq ▸ hes, ?_⟩
  unfold bodyCalls at *
  simp [hb, ha, hcalls]

theorem map_ofField_ofElement (ts : List Ty) :
    (ts.map Field.ofElement).map Place.ofField = ts.map .value := by
  rw [List.map_map]
  rfl

-- The body of a target converts what stands in it.
theorem BodyFor.converted {key : GuardKey} {body : List Stmt} (h : BodyFor s name? key body) :
    Converted s name? (key.places s) body := by
  cases h with
  | @loadMapping t fields _ _ hh hs ha =>
    have hk : bodyCalls (.beginMapping (.var "v1") :: keyChecks s fields) = [] := by
      unfold keyChecks
      split <;> rfl
    exact ha.converted.around _ (GuardKey.places_record hh hs) hk rfl
  | loadSequence _ hh hs ha =>
    exact ha.converted.around [_] (GuardKey.places_record hh hs) rfl rfl
  | loadTuple _ hh hs ha =>
    refine ha.converted.around [_] ?_ rfl rfl
    rw [map_ofField_ofElement, GuardKey.places_tuple hh hs]
  | dumpMapping _ hh hs ho =>
    refine (ho.converted ?_).around [_] (GuardKey.places_record hh hs) rfl rfl
    exact fun _ _ => rfl
  | dumpSequence _ hh hs ho =>
    refine (ho.converted ?_).around [_] (GuardKey.places_record hh hs) rfl rfl
    exact fun _ _ => rfl
  | dumpTuple _ hh hs ho =>
    refine (ho.converted ?_).around [_] ?_ rfl rfl
    · exact fun _ _ => rfl
    · rw [map_ofField_ofElement, GuardKey.places_tuple hh hs]
  | union hh hs ha =>
    refine ⟨_, ?_, by simp [bodyCalls, Stmt.exprs, Expr.calls, Expr.callsList_eq]; rfl⟩
    rw [GuardKey.places_union hh hs, List.forall₂_map_left_iff]
    exact ha.imp fun _ _ he => .value he
  | value hn he =>
    rw [GuardKey.places_value hn]
    exact ⟨_, .cons (.value he) .nil, by simp [bodyCalls, Stmt.exprs]⟩
  | slot he => exact ⟨_, .cons (.value he) .nil, by simp [bodyCalls, Stmt.exprs]⟩

-- Every procedure that an expression calls is that of a target.
theorem ExprFor.named {t : Ty} {arg : Operand} {e : Expr} (h : ExprFor s name? t arg e) :
    ∀ p ∈ e.calls, ∃ key, name? key = some p := by
  induction h with
  | hook | leaf => nofun
  | call _ _ hn => simpa [Expr.calls] using ⟨_, hn⟩
  | optional _ _ ih | boxed _ _ ih | list _ _ ih => exact ih
  | map _ _ _ ihk ihv => exact fun p hp => (List.mem_append.mp hp).elim (ihk p) (ihv p)

theorem PlaceExpr.named {p : Place} {e : Expr} (h : PlaceExpr s name? p e) :
    ∀ p ∈ e.calls, ∃ key, name? key = some p := by
  cases h with
  | value he => exact he.named
  | slot hn => simpa [Expr.calls] using ⟨_, hn⟩

-- A place that is left to a target is converted by a call of it.
theorem PlaceExpr.calls_target {p : Place} {key : GuardKey} {e : Expr}
    (h : PlaceExpr s name? p e) (ht : p.target? s = some key) :
    ∃ name, name? key = some name ∧ name ∈ e.calls := by
  cases h with
  | slot hn =>
    cases ht
    exact ⟨_, hn, List.mem_singleton.mpr rfl⟩
  | value he =>
    obtain ⟨hh, hp, rfl⟩ := Place.target?_value_eq_some ht
    cases he with
    | call _ _ hn => exact ⟨_, hn, List.mem_singleton.mpr rfl⟩
    | hook hb => simp [hb] at hh
    | leaf _ hl => rcases hl with ⟨_, hl⟩ | hl <;> simp [Schema.HasProcedure, hl] at hp
    | optional | boxed | list | map => exact absurd hp id

-- A value that is converted in place is converted by way of the values in it.
theorem ExprFor.exists_inner {t u : Ty} {arg : Operand} {e : Expr} (h : ExprFor s name? t arg e)
    (ht : (Place.value t).target? s = none) (hu : u ∈ s.inner t) :
    ∃ arg' e', ExprFor s name? u arg' e' ∧ e'.calls ⊆ e.calls := by
  have ⟨hh, hu⟩ := Settings.mem_inner.mp hu
  cases h with
  | hook hb => simp [hb] at hh
  | leaf _ hl => rcases hl with ⟨_, hl⟩ | hl <;> simp [Schema.within, hl] at hu
  | call _ hp => simp [Place.target?, hh, hp] at ht
  | optional _ he | boxed _ he | list _ he =>
    cases List.mem_singleton.mp hu
    exact ⟨_, _, he, List.Subset.refl _⟩
  | map _ hk he =>
    simp only [Schema.within, Schema.shape, List.mem_cons, List.not_mem_nil, or_false] at hu
    rcases hu with rfl | rfl
    · exact ⟨_, _, hk, List.subset_append_left ..⟩
    · exact ⟨_, _, he, List.subset_append_right ..⟩

end Calls

-- A procedure calls another one by its name.
def Builder.Calls (b : Builder) (caller callee : String) : Prop :=
  ∃ p ∈ b.sealed, p.name = caller ∧ callee ∈ p.calls

-- A source has one procedure for each target of its root, and nothing else: every call is of one of
-- them, and each of them is called in the end, from the entry on, which is the last one.
structure Source.Closed (s : Settings) (root : Ty) (source : Source) : Prop where
  pending   : source.builder.pending = []
  distinct  : source.builder.names.Nodup
  targets   : ∃ keys name?, keys.Nodup ∧ (∀ key, key ∈ keys ↔ IsTarget s root key) ∧
    name? (.origin root) = some source.entry ∧
    List.Forall₂ (fun key p => name? key = some p.name ∧ ProcedureFor s name? key p) keys
      source.builder.sealed
  calls     : ∀ p ∈ source.builder.sealed, ∀ name ∈ p.calls, name ∈ source.builder.names
  reachable : ∀ name ∈ source.builder.names,
    Relation.ReflTransGen source.builder.Calls source.entry name
  last      : source.builder.names.getLast? = some source.entry

namespace Compilation

variable {s : Settings} {root : Ty} {source : Source} {name? : GuardKey → Option String}

theorem calls_named (hc : Compilation s root source name?) :
    ∀ p ∈ source.builder.sealed, ∀ name ∈ p.calls, name ∈ source.builder.names := by
  intro p hp name hn
  have ⟨key, _, hfor⟩ := hc.made p hp
  have ⟨es, hes, hcalls⟩ := hfor.body.converted
  have ⟨e, he, hn⟩ := List.mem_flatMap.mp <| hcalls ▸ (show name ∈ bodyCalls p.body from hn)
  have ⟨_, _, hplace⟩ := exists_of_forall₂ hes.flip e he
  have ⟨key', hk⟩ := hplace.named name hn
  have ⟨q, hq, hqn, _⟩ := hc.covered key' name hk
  exact List.mem_map.mpr ⟨q, hq, hqn⟩

-- A procedure that is called in the end, from the entry on.
def Runs (source : Source) (p : Procedure) : Prop :=
  p ∈ source.builder.sealed ∧ Relation.ReflTransGen source.builder.Calls source.entry p.name

-- The targets that a walk meets have procedures that run.
theorem runs (hc : Compilation s root source name?) {keys : List GuardKey}
    (hw : Walk.FromRoot s root (.ok keys)) :
    ∀ key ∈ keys, ∃ p, Runs source p ∧ name? key = some p.name ∧ ProcedureFor s name? key p := by
  have hentry : ∃ p, Runs source p ∧ name? (.origin root) = some p.name ∧
      ProcedureFor s name? (.origin root) p := by
    have ⟨p, hp, hn, hfor⟩ := hc.covered _ _ hc.entry
    exact ⟨p, ⟨hp, hn ▸ .refl⟩, hn ▸ hc.entry, hfor⟩
  -- An expression for every place that is met stands in a procedure that runs.
  let Met (q : Place) := ∃ p e, Runs source p ∧ PlaceExpr s name? q e ∧ e.calls ⊆ p.calls
  let Made (key : GuardKey) :=
    ∃ p, Runs source p ∧ name? key = some p.name ∧ ProcedureFor s name? key p
  have htarget : ∀ q key, Met q → q.target? s = some key → Made key := by
    intro q key ⟨p, e, hp, he, hcalls⟩ ht
    have ⟨name, hk, hn⟩ := he.calls_target ht
    obtain ⟨p', hp', rfl, hfor⟩ := hc.covered key name hk
    exact ⟨p', ⟨hp', hp.right.tail ⟨p, hp.left, rfl, hcalls hn⟩⟩, hk, hfor⟩
  have hplaces : ∀ key q, Made key → q ∈ key.places s → Met q := by
    intro key q ⟨p, hp, _, hfor⟩ hq
    have ⟨es, hes, hcalls⟩ := hfor.body.converted
    have ⟨e, he, hplace⟩ := exists_of_forall₂ hes q hq
    refine ⟨p, e, hp, hplace, fun name hn => ?_⟩
    show name ∈ bodyCalls p.body
    exact hcalls ▸ List.mem_flatMap.mpr ⟨e, he, hn⟩
  have hinner : ∀ t u, Met (.value t) → (Place.value t).target? s = none → u ∈ s.inner t →
      Met (.value u) := by
    rintro t u ⟨p, e, hp, ⟨he⟩, hcalls⟩ ht hu
    have ⟨_, e', he', hsub⟩ := he.exists_inner ht hu
    exact ⟨p, e', hp, .value he', List.Subset.trans hsub hcalls⟩
  refine hw.preserves htarget hplaces hinner (fun q hq => hplaces _ q hentry hq) ?_
  simpa using hentry

-- Each procedure is the one of a target, and each target has one.
theorem exists_targets {g : Guard} (hc : Compilation s root source g.lookup)
    (hw : Walk.FromRoot s root (.ok g.keys)) (hg : g.Proper) :
    ∃ keys : List GuardKey, keys.Nodup ∧ (∀ key, key ∈ keys ↔ IsTarget s root key) ∧
      List.Forall₂ (fun key p => g.lookup key = some p.name ∧ ProcedureFor s g.lookup key p) keys
        source.builder.sealed := by
  obtain ⟨made, hsealed, hmade⟩ := exists_map (f := Prod.snd)
    (Q := fun m : GuardKey × Procedure =>
      g.lookup m.1 = some m.2.name ∧ ProcedureFor s g.lookup m.1 m.2)
    fun p hp => have ⟨key, hkey⟩ := hc.made p hp; ⟨(key, p), rfl, hkey⟩
  refine ⟨made.map Prod.fst, ?nodup, fun key => ⟨?target, ?met⟩, hsealed ▸ forall₂_maps hmade⟩
  case nodup =>
    have hnames : (made.map Prod.fst).map g.lookup = source.builder.names.map some := by
      rw [Builder.names, ← hsealed, List.map_map, List.map_map, List.map_map]
      exact List.map_congr_left fun m hm => (hmade m hm).left
    refine List.Nodup.of_map g.lookup ?_
    rw [hnames]
    exact hc.distinct.map fun _ _ he => Option.some.inj he
  case target =>
    intro hk
    obtain ⟨m, hm, rfl⟩ := List.mem_map.mp hk
    exact (hw.mem_iff _).mp <| Guard.mem_keys (hmade m hm).left
  case met =>
    intro hk
    obtain ⟨p, hp, hn, _⟩ := hc.runs hw key ((hw.mem_iff key).mpr hk)
    obtain ⟨m, hm, rfl⟩ := List.mem_map.mp (hsealed ▸ hp.left)
    exact List.mem_map.mpr ⟨m, hm, hg.injective _ _ _ (hmade m hm).left hn⟩

end Compilation

-- Every compilation that succeeds makes one procedure for each target, all of them connected.
theorem compileProcedures_closed {S : Schema} {options : Options} {hooks : Hooks} {d : Direction}
    {root : Ty} {source : Source}
    (h : (compileProcedures S options hooks d root).result = .ok source) :
    source.Closed ⟨S, d, hooks, options⟩ root := by
  have ⟨g, hc, hw, hg⟩ := compileProcedures_walked h
  have ⟨keys, hnodup, hkeys, hmade⟩ := hc.exists_targets hw hg
  constructor
  case pending => exact hc.pending
  case distinct => exact hc.distinct
  case targets => exact ⟨keys, g.lookup, hnodup, hkeys, hc.entry, hmade⟩
  case calls => exact hc.calls_named
  case last => exact hc.last
  case reachable =>
    intro name hn
    obtain ⟨p, hp, rfl⟩ := List.mem_map.mp hn
    have ⟨key, hk, _⟩ := hc.made p hp
    have ⟨q, hq, hkq, _⟩ := hc.runs hw key (Guard.mem_keys hk)
    exact Option.some.inj (hk.symm.trans hkq) ▸ hq.right

theorem compileProcedures_closed_orchard :
    ∃ source, (compileProcedures orchard {} {} .dump (.declared "Tree")).result = .ok source ∧
      source.Closed ⟨orchard, .dump, {}, {}⟩ (.declared "Tree") :=
  have ⟨source, h⟩ := Compiled.exists_ok (by decide +kernel)
  ⟨source, h, compileProcedures_closed h⟩

end TreeCodec
