import TreeCodec.Procedure.Unit
import TreeCodec.Proofs.HelperNames
import TreeCodec.Proofs.PureRun
import TreeCodec.Proofs.Target

/-!
Compiled load procedures link, and what they are linked to does what a target does.
-/
namespace TreeCodec

open Target

-- The variable of an operand that reads a tree.
inductive Operand.ReadsTree (x : String) : Operand → Prop
  | var : ReadsTree x (.var x)
  | key {k : String} : ReadsTree x (.key x k)
  | item {i : Nat} : ReadsTree x (.item x i)

-- What an operand of a variable reads where the variable is innermost.
def Operand.loadSource : Operand → LoadSource
  | .key _ k => .key 0 k
  | .item _ i => .item 0 i
  | _ => .var 0

-- Calls of targets as calls of the procedures that they have in a unit.
def calledLoad (name? : GuardKey → Option String) (slots : SlotTable) (callee : Nat → Load.Rule)
    (key : GuardKey) : Load.Rule :=
  match (name? key).bind slots.load? with
  | some i => callee i
  | none => fun _ => Run.unfinished

-- What the names in a load procedure are resolved against, where its helpers are bound as they
-- should be.
structure LoadLinker (s : Settings) (name? : GuardKey → Option String) (L : Linker) : Prop where
  direction : s.direction = .load
  schema    : L.schema = s.schema
  resolves  : ∀ key p, name? key = some p → ∃ i, Keyed.get? p L.slots = some (.load i)

theorem Linker.loadSource_eq {x : String} {arg : Operand} (h : arg.ReadsTree x) (scope : Scope) :
    loadSource (x :: scope) arg = .ok arg.loadSource := by
  have hx : List.idxOf? x (x :: scope) = some 0 := by
    simp [List.idxOf?, List.findIdx?, List.findIdx?.go]
  cases h <;> simp only [loadSource, depth, Operand.base, hx, Operand.loadSource] <;> rfl

theorem LoadSource.feed_var (t : Option Tree) (frame : LoadFrame) (rule : Load.Rule) :
    feed (t :: frame) rule (.var 0) = rule t :=
  rfl

theorem Linker.ok_bind {ε α β : Type} (a : α) (f : α → Except ε β) :
    (Except.ok a >>= f) = f a :=
  rfl

namespace LoadLinker

variable {s : Settings} {name? : GuardKey → Option String} {L : Linker}

theorem loadHooked_eq (hL : LoadLinker s name? L) {t : Ty} {rule : Load.Rule}
    (h : s.hook? t = none) : Direct.loadHooked s.hooks t rule = rule := by
  simp [Direct.loadHooked, (Settings.load?_eq_none_iff hL.direction).mpr h]

theorem link_expr (hL : LoadLinker s name? L) {t : Ty} {arg : Operand} {e : Expr}
    (he : ExprFor s name? t arg e) :
    (∀ name b, (name, b) ∈ e.uses s t → Keyed.get? name L.locals = some b) →
    ∀ (x : String) (scope : Scope), arg.ReadsTree x →
    ∃ le, L.loadExpr e (x :: scope) = .ok le ∧ ∀ callee frame,
      le.eval s.schema callee frame =
        arg.loadSource.feed frame
          (loadInline s.schema s.hooks (calledLoad name? L.slots callee) t) := by
  induction he with
  | @hook t arg b hh =>
    intro hb x scope harg
    obtain ⟨f, hf, he⟩ := Settings.load?_of_hook? hL.direction hh
    have hbound := hb (s.schema.hookName t) b (by simp [Expr.uses, hh])
    refine ⟨.hook arg.loadSource f, ?_, fun callee frame => ?_⟩
    · simp [Linker.loadExpr, Linker.loadSource_eq harg, Linker.binding, hbound, he]
      rfl
    · simp only [LoadExpr.eval]
      rw [loadInline_hooked hf]
  | @leaf t arg hh hl =>
    intro hb x scope harg
    have hbound := hb (s.schema.leafName t) (.type t) (by simp [Expr.uses, hh])
    rcases hl with ⟨k, hk⟩ | hk
    case inl =>
      refine ⟨.scalar arg.loadSource k, ?_, fun callee frame => ?_⟩
      · simp [Linker.loadExpr, Linker.loadSource_eq harg, Linker.binding, hbound, hL.schema, hk,
          Linker.ok_bind]
      · rw [loadInline_scalar hk, hL.loadHooked_eq hh, LoadExpr.eval]
    case inr =>
      refine ⟨.tree arg.loadSource t, ?_, fun callee frame => ?_⟩
      · simp [Linker.loadExpr, Linker.loadSource_eq harg, Linker.binding, hbound, hL.schema, hk,
          Linker.ok_bind]
      · rw [loadInline_dynamic hk, hL.loadHooked_eq hh, LoadExpr.eval]
  | @call t arg p hh hp hn =>
    intro _ x scope harg
    obtain ⟨i, hi⟩ := hL.resolves _ _ hn
    refine ⟨.call arg.loadSource i, ?_, fun callee frame => ?_⟩
    · simp [Linker.loadExpr, Linker.loadSource_eq harg, Linker.procedure, hi]
      rfl
    · rw [loadInline_call hp, hL.loadHooked_eq hh, LoadExpr.eval]
      simp [calledLoad, hn, SlotTable.load?, hi]
  | @optional u arg x e hh _ ih =>
    intro hb y scope harg
    have hbound := hb _ (.type (.optional u)) (List.mem_cons_self ..)
    obtain ⟨le, hle, heval⟩ := ih (fun name b hm => hb name b (List.mem_cons_of_mem _ hm)) x
      (y :: scope) .var
    refine ⟨.optional arg.loadSource u le, ?_, fun callee frame => ?_⟩
    · simp [Linker.loadExpr, Linker.loadSource_eq harg, Linker.helper, Linker.type, Linker.binding,
        hbound, hle, Schema.option, Schema.shape]
      rfl
    · simp only [LoadExpr.eval, heval, loadInline, hL.loadHooked_eq hh]
      rfl
  | @boxed u arg x e hh _ ih =>
    intro hb y scope harg
    have hbound := hb _ (.type (.boxed u)) (List.mem_cons_self ..)
    obtain ⟨le, hle, heval⟩ := ih (fun name b hm => hb name b (List.mem_cons_of_mem _ hm)) x
      (y :: scope) .var
    refine ⟨.boxed arg.loadSource u le, ?_, fun callee frame => ?_⟩
    · simp [Linker.loadExpr, Linker.loadSource_eq harg, Linker.helper, Linker.type, Linker.binding,
        hbound, hle, Schema.box, Schema.shape]
      rfl
    · simp only [LoadExpr.eval, heval, loadInline, hL.loadHooked_eq hh]
      rfl
  | @list k u arg x e hh _ ih =>
    intro hb y scope harg
    have hbound := hb _ (.type (.list k u)) (List.mem_cons_self ..)
    obtain ⟨le, hle, heval⟩ := ih (fun name b hm => hb name b (List.mem_cons_of_mem _ hm)) x
      (y :: scope) .var
    refine ⟨.list arg.loadSource (.list k u) u le, ?_, fun callee frame => ?_⟩
    · simp [Linker.loadExpr, Linker.loadSource_eq harg, Linker.helper, Linker.type, Linker.binding,
        hbound, hle, Schema.item, Schema.shape]
      rfl
    · simp only [LoadExpr.eval, heval, loadInline, hL.loadHooked_eq hh]
      rfl
  | @map k u v arg x y e f hh _ _ ihk ihv =>
    intro hb z scope harg
    have hbound := hb _ (.type (.map k u v)) (List.mem_cons_self ..)
    obtain ⟨lk, hlk, hevalk⟩ := ihk
      (fun name b hm => hb name b (List.mem_cons_of_mem _ (List.mem_append_left _ hm))) x
      (z :: scope) .var
    obtain ⟨lv, hlv, hevalv⟩ := ihv
      (fun name b hm => hb name b (List.mem_cons_of_mem _ (List.mem_append_right _ hm))) y
      (z :: scope) .var
    refine ⟨.map arg.loadSource (.map k u v) k u v lk lv, ?_, fun callee frame => ?_⟩
    · simp [Linker.loadExpr, Linker.loadSource_eq harg, Linker.helper, Linker.type, Linker.binding,
        hbound, hlk, hlv, Schema.entry, Schema.shape]
      rfl
    · simp only [LoadExpr.eval, hevalk, hevalv, loadInline, hL.loadHooked_eq hh]
      rfl

-- A field is loaded as its slot or in place.
theorem link_field (hL : LoadLinker s name? L) {f : Field} {arg : Operand} {e : Expr}
    (he : FieldExpr s name? f arg e)
    (hb : ∀ name b, (name, b) ∈ e.uses s f.ty → Keyed.get? name L.locals = some b)
    {x : String} (scope : Scope) (harg : arg.ReadsTree x) :
    ∃ le, L.loadExpr e (x :: scope) = .ok le ∧ ∀ callee frame,
      le.eval s.schema callee frame =
        arg.loadSource.feed frame
          (loadField s.schema s.hooks (calledLoad name? L.slots callee) f) := by
  cases he with
  | @slot i p hp hn =>
    obtain ⟨i, hi⟩ := hL.resolves _ _ hn
    refine ⟨.call arg.loadSource i, ?_, fun callee frame => ?_⟩
    · simp [Linker.loadExpr, Linker.loadSource_eq harg, Linker.procedure, hi]
      rfl
    · simp [LoadExpr.eval, loadField, hp, calledLoad, hn, SlotTable.load?, hi]
  | inline hp he =>
    obtain ⟨le, hle, heval⟩ := hL.link_expr he hb x scope harg
    refine ⟨le, hle, fun callee frame => ?_⟩
    rw [heval, loadField]
    simp [hp]

-- The rules of alternatives are those of the variants.
theorem link_alternatives (hL : LoadLinker s name? L) {x : String} {variants : List Variant}
    {es : List Expr} (h : Alternatives s name? x variants es)
    (hb : ∀ name b, (name, b) ∈ Expr.usesAll s es (variants.map Variant.ty) →
      Keyed.get? name L.locals = some b) (scope : Scope) :
    ∃ les, L.loadExprs es (x :: scope) = .ok les ∧ ∀ callee frame,
      LoadExpr.evalList s.schema callee les frame = variants.map fun v =>
        loadInline s.schema s.hooks (calledLoad name? L.slots callee) v.ty := by
  induction h with
  | nil => exact ⟨[], by simp [Linker.loadExprs]; rfl, fun _ _ => rfl⟩
  | @cons v e variants es he _ ih =>
    obtain ⟨le, hle, heval⟩ := hL.link_expr he
      (fun name b hm => hb name b (List.mem_append_left _ hm)) x scope .var
    obtain ⟨les, hles, hevals⟩ := ih fun name b hm => hb name b (List.mem_append_right _ hm)
    refine ⟨le :: les, ?_, fun callee frame => ?_⟩
    · simp [Linker.loadExprs, hle, hles]
      rfl
    · simp only [LoadExpr.evalList, List.map_cons, hevals, heval]
      rfl

end LoadLinker

-- An operand that reads a part of a variable, with what it reads and the step to it.
inductive Operand.ReadsPart (x : String) :
    Operand → (Option Tree → Run (Option Tree)) → PathStep → Prop
  | key {k : String} : ReadsPart x (.key x k) (Load.entry k) (.key k)
  | item {i : Nat} : ReadsPart x (.item x i) (Load.element i) (.index i)

namespace Operand.ReadsPart

variable {x : String} {arg : Operand} {read : Option Tree → Run (Option Tree)} {step : PathStep}

theorem readsTree (h : ReadsPart x arg read step) : arg.ReadsTree x := by
  cases h
  · exact .key
  · exact .item

-- Nothing is logged when a part is looked for.
theorem cases (h : ReadsPart x arg read step) (input : Option Tree) :
    (∃ t, read input = pure t) ∨ ∃ e, read input = Run.fail e := by
  cases h <;> cases input with
  | none => exact .inr ⟨_, rfl⟩
  | some t => cases t <;> first | exact .inl ⟨_, rfl⟩ | exact .inr ⟨_, rfl⟩

theorem eval_assignment (h : ReadsPart x arg read step) {S : Schema} {callee : Nat → Load.Rule}
    {le : LoadExpr} {rule : Load.Rule} {input : Option Tree}
    (he : le.eval S callee [input] = arg.loadSource.feed [input] rule) (default : Option Value) :
    Assignment.eval S callee [input] ⟨arg.loadSource, le, default⟩ =
      (Direct.loadPart rule default (read input)).within step := by
  have hc := h.cases input
  cases h with
  | @key k =>
    have hread : (LoadSource.key 0 k).read [input] = Load.entry k input := rfl
    simp only [Assignment.eval, he, Operand.loadSource, LoadSource.feed, LoadSource.locate, hread,
      Direct.loadPart]
    rcases hc with ⟨t, ht⟩ | ⟨e, ht⟩
    · rw [ht]
      cases t <;> cases default <;> rfl
    · rw [ht]
      rfl
  | @item i =>
    have hread : (LoadSource.item 0 i).read [input] = Load.element i input := rfl
    simp only [Assignment.eval, he, Operand.loadSource, LoadSource.feed, LoadSource.locate, hread,
      Direct.loadPart]
    rcases hc with ⟨t, ht⟩ | ⟨e, ht⟩
    · rw [ht]
      cases t <;> cases default <;> rfl
    · rw [ht]
      rfl

end Operand.ReadsPart

namespace LoadLinker

variable {s : Settings} {name? : GuardKey → Option String} {L : Linker}

-- A statement that does not fill a slot ends the assignments.
def EndsAssignments : List Stmt → Prop
  | .assign .. :: _ => False
  | _ => True

theorem link_assignments (hL : LoadLinker s name? L) {x : String}
    {source : Nat → Field → Operand} (read : Nat → Field → Option Tree → Run (Option Tree))
    (step : Nat → Field → PathStep) (hsource : ∀ i f, (source i f).ReadsPart x (read i f) (step i f))
    {i : Nat} {fs : List Field} {stmts : List Stmt} (h : Assigns s name? source i fs stmts)
    {t : Ty} (rest : List Stmt) (hrest : EndsAssignments rest)
    (hb : ∀ name b, (name, b) ∈ Stmt.usesAll s t fs (stmts ++ rest) →
      Keyed.get? name L.locals = some b) :
    ∃ as, L.assignments x i (stmts ++ rest) = .ok (as, rest) ∧ as.length = fs.length ∧
      ∀ callee input, Run.forEach (fun _ a => a.eval s.schema callee [input]) i as =
        Run.forEach (fun i f => (Direct.loadPart
          (loadField s.schema s.hooks (calledLoad name? L.slots callee) f) f.default
          (read i f input)).within (step i f)) i fs := by
  induction h with
  | nil =>
    refine ⟨[], ?_, rfl, fun _ _ => rfl⟩
    cases rest with
    | nil => simp [Linker.assignments]
    | cons stmt rest =>
      cases stmt <;> first | exact absurd hrest id | simp [Linker.assignments]
  | @cons i f fs e stmts he _ ih =>
    simp only [List.cons_append, Stmt.usesAll, List.mem_append] at hb
    obtain ⟨as, has, hlen, heval⟩ := ih fun name b hm => hb name b (.inr hm)
    obtain ⟨le, hle, hev⟩ := hL.link_field he (fun name b hm => hb name b (.inl <| .inl hm))
      [] (hsource i f).readsTree
    refine ⟨⟨(source i f).loadSource, le, f.default⟩ :: as, ?_, by simp [hlen], ?_⟩
    · have hsrc := Linker.loadSource_eq (hsource i f).readsTree []
      cases hd : f.default with
      | none =>
        simp [Linker.assignments, hsrc, hle, has]
        rfl
      | some v =>
        have hbound := hb f.defaultName (.default v) (by simp [defaultUses, hd])
        simp [Linker.assignments, hsrc, hle, has, Linker.default, Linker.binding, hbound]
        rfl
    · intro callee input
      simp only [Run.forEach, heval, (hsource i f).eval_assignment (hev callee [input])]

end LoadLinker

-- Keys are checked by a statement of its own, which none of the assignments is.
theorem Linker.knownKeys_assigns {s : Settings} {name? : GuardKey → Option String}
    {source : Nat → Field → Operand} {i : Nat} {fs : List Field} {stmts : List Stmt}
    (h : Assigns s name? source i fs stmts) (param : String) (expected : Option Expectation) :
    knownKeys param expected (stmts ++ [.construct "cls"]) =
      .ok (none, stmts ++ [.construct "cls"]) := by
  cases h <;> rfl

theorem Linker.loadResult_construct {L : Linker} {t : Ty} {n : Nat} {param : String}
    (ht : Keyed.get? "cls" L.locals = some (.type t))
    (hs : (∃ fields positional, L.schema.shape t = .record fields positional ∧ n = fields.length) ∨
      ∃ ts, L.schema.shape t = .tuple ts ∧ n = ts.length) :
    L.loadResult param n [.construct "cls"] = .ok (.construct t, []) := by
  rcases hs with ⟨_, _, hs, rfl⟩ | ⟨_, hs, rfl⟩ <;>
    simp [loadResult, type, binding, ht, ok_bind, hs] <;> rfl

theorem Linker.loadProcedure_returnValue {L : Linker} {p : Procedure} {param : String} {e : Expr}
    {le : LoadExpr} (hparam : parameter p.signature = .ok param) (hbody : p.body = [.returnValue e])
    (he : L.loadExpr e [param] = .ok le) :
    L.loadProcedure p = .ok ⟨p.name, none, none, [], .value le⟩ := by
  simp [loadProcedure, hparam, hbody, expectation, knownKeys, assignments, loadResult, he, ok_bind,
    nothing]

-- A procedure does what a rule does if its body does, and if the rule refuses an absent tree where
-- the procedure does.
theorem LoadProcedure.untrailed_run {S : Schema} {callee : Nat → Load.Rule} {q : LoadProcedure}
    {rule : Load.Rule} (hbody : ∀ input, q.body S callee input = rule input)
    (habsent : q.passesAbsent = false → rule none = Run.fault .missing) (input : Option Tree) :
    (q.run S callee input none).untrailed = (rule input).untrailed := by
  cases input with
  | some t => rw [run, Run.untrailed_through, hbody]
  | none =>
    simp only [run]
    split
    case isTrue => rw [Run.untrailed_through, hbody]
    case isFalse h => rw [habsent (by simpa using h)]

namespace LoadLinker

variable {s : Settings} {name? : GuardKey → Option String} {L : Linker} {key : GuardKey}
  {p : Procedure}

-- A body links, in any load procedure that has it, to one that does what the target does.
def LinksBody (s : Settings) (name? : GuardKey → Option String) (L : Linker) (key : GuardKey)
    (body : List Stmt) : Prop :=
  ∀ p : Procedure, Linker.parameter p.signature = .ok "v1" → p.body = body →
    ∃ q, L.loadProcedure p = .ok q ∧ ∀ callee input,
      (q.run s.schema callee input none).untrailed =
        (Target.load s.schema s.hooks s.options (calledLoad name? L.slots callee) key
          input).untrailed

theorem links_mapping (hL : LoadLinker s name? L) {t : Ty} {fields : List Field}
    {stmts : List Stmt} (hcls : Keyed.get? "cls" L.locals = some (.type t))
    (hh : s.hook? t = none) (hs : s.schema.shape t = .record fields false)
    (ha : Assigns s name? (fun _ f => .key "v1" f.key) 0 fields stmts)
    (hb : ∀ name b, (name, b) ∈ Stmt.usesAll s t fields (stmts ++ [.construct "cls"]) →
      Keyed.get? name L.locals = some b) :
    LinksBody s name? L (.origin t)
      (.beginMapping (.var "v1") :: (keyChecks s fields ++ (stmts ++ [.construct "cls"]))) := by
  intro p hparam hp
  have ⟨as, has, hlen, heval⟩ := hL.link_assignments (fun _ f => Load.entry f.key)
    (fun _ f => .key f.key) (fun _ _ => .key) ha [.construct "cls"] trivial hb
  have hresult : L.loadResult "v1" as.length [.construct "cls"] = .ok (.construct t, []) :=
    L.loadResult_construct hcls <| .inl ⟨fields, false, hL.schema ▸ hs, hlen⟩
  refine ⟨⟨p.name, some .mapping,
    if s.options.denyUnknownKeys then some (fields.map Field.key) else none, as,
    .construct t⟩, ?_, fun callee => LoadProcedure.untrailed_run (fun input => ?_) fun _ => ?_⟩
  · by_cases ho : s.options.denyUnknownKeys = true
    · simp [Linker.loadProcedure, hparam, hp, keyChecks, Linker.expectation, Linker.ok_bind,
        Linker.knownKeys, ho, has, hresult, Linker.nothing]
    · simp [Linker.loadProcedure, hparam, hp, keyChecks, Linker.expectation, Linker.ok_bind,
        Linker.knownKeys_assigns ha, ho, has, hresult, Linker.nothing]
  · by_cases ho : s.options.denyUnknownKeys = true
    · simp [LoadProcedure.body, load, hL.loadHooked_eq hh, loadOrigin, hs, Direct.loadMapping, ho,
        heval, Run.forEach_map, Expectation.check]
      rfl
    · simp [LoadProcedure.body, load, hL.loadHooked_eq hh, loadOrigin, hs, Direct.loadMapping, ho,
        heval, Run.forEach_map, Expectation.check]
  · simp [load, hL.loadHooked_eq hh, loadOrigin, hs, Direct.loadMapping]
    rfl

theorem links_sequence (hL : LoadLinker s name? L) {t : Ty} {fields : List Field}
    {stmts : List Stmt} (hcls : Keyed.get? "cls" L.locals = some (.type t))
    (hh : s.hook? t = none) (hs : s.schema.shape t = .record fields true)
    (ha : Assigns s name? (fun i _ => .item "v1" i) 0 fields stmts)
    (hb : ∀ name b, (name, b) ∈ Stmt.usesAll s t fields (stmts ++ [.construct "cls"]) →
      Keyed.get? name L.locals = some b) :
    LinksBody s name? L (.origin t)
      (.beginSequence (.var "v1") (requiredLength fields) fields.length ::
        (stmts ++ [.construct "cls"])) := by
  intro p hparam hp
  have ⟨as, has, hlen, heval⟩ := hL.link_assignments (fun i _ => Load.element i)
    (fun i _ => .index i) (fun _ _ => .item) ha [.construct "cls"] trivial hb
  have hresult : L.loadResult "v1" as.length [.construct "cls"] = .ok (.construct t, []) :=
    L.loadResult_construct hcls <| .inl ⟨fields, true, hL.schema ▸ hs, hlen⟩
  have hlength : ¬ fields.length < requiredLength fields := by
    have := requiredLength_le fields
    omega
  refine ⟨⟨p.name, some (.sequence (requiredLength fields) fields.length), none, as,
    .construct t⟩, ?_, fun callee => LoadProcedure.untrailed_run (fun input => ?_) fun _ => ?_⟩
  · simp [Linker.loadProcedure, hparam, hp, Linker.expectation, Linker.ok_bind,
      Linker.knownKeys_assigns ha, has, hresult, hlength, Linker.nothing]
  · simp [LoadProcedure.body, load, hL.loadHooked_eq hh, loadOrigin, hs, Direct.loadSequence,
      heval, Run.forEach_map, Expectation.check, Function.comp_def]
  · simp [load, hL.loadHooked_eq hh, loadOrigin, hs, Direct.loadSequence]
    rfl

theorem links_tuple (hL : LoadLinker s name? L) {t : Ty} {ts : List Ty} {stmts : List Stmt}
    (hcls : Keyed.get? "cls" L.locals = some (.type t)) (hh : s.hook? t = none)
    (hs : s.schema.shape t = .tuple ts)
    (ha : Assigns s name? (fun i _ => .item "v1" i) 0 (ts.map .ofElement) stmts)
    (hb : ∀ name b,
      (name, b) ∈ Stmt.usesAll s t (ts.map .ofElement) (stmts ++ [.construct "cls"]) →
      Keyed.get? name L.locals = some b) :
    LinksBody s name? L (.origin t)
      (.beginSequence (.var "v1") ts.length ts.length :: (stmts ++ [.construct "cls"])) := by
  intro p hparam hp
  have ⟨as, has, hlen, heval⟩ := hL.link_assignments (fun i _ => Load.element i)
    (fun i _ => .index i) (fun _ _ => .item) ha [.construct "cls"] trivial hb
  have hresult : L.loadResult "v1" as.length [.construct "cls"] = .ok (.construct t, []) :=
    L.loadResult_construct hcls <| .inr ⟨ts, hL.schema ▸ hs, by simp [hlen]⟩
  refine ⟨⟨p.name, some (.sequence ts.length ts.length), none, as, .construct t⟩, ?_,
    fun callee => LoadProcedure.untrailed_run (fun input => ?_) fun _ => ?_⟩
  · simp [Linker.loadProcedure, hparam, hp, Linker.expectation, Linker.ok_bind,
      Linker.knownKeys_assigns ha, has, hresult, Linker.nothing]
  · simp [LoadProcedure.body, load, hL.loadHooked_eq hh, loadOrigin, hs, Direct.loadTuple,
      heval, Run.forEach_map, Expectation.check, loadField, Field.ofElement]
  · simp [load, hL.loadHooked_eq hh, loadOrigin, hs, Direct.loadTuple]
    rfl

theorem links_union (hL : LoadLinker s name? L) {t : Ty} {variants : List Variant} {x : String}
    {es : List Expr} (hh : s.hook? t = none) (hs : s.schema.shape t = .union variants)
    (ha : Alternatives s name? x variants es)
    (hbound : Keyed.get? (s.schema.helperName "union" t) L.locals = some (.type t))
    (hb : ∀ name b, (name, b) ∈ Expr.usesAll s es (variants.map Variant.ty) →
      Keyed.get? name L.locals = some b) :
    LinksBody s name? L (.origin t)
      [.returnValue (.union (s.schema.helperName "union" t) (.var "v1") x es)] := by
  intro p hparam hp
  obtain ⟨les, hles, heval⟩ := hL.link_alternatives ha hb ["v1"]
  have hlen : variants.length = es.length := ha.length_eq
  have hle : L.loadExpr (.union (s.schema.helperName "union" t) (.var "v1") x es) ["v1"] =
      .ok (.union (.var 0) t variants les) := by
    simp [Linker.loadExpr, Linker.unionHelper, Linker.helper, Linker.type, Linker.binding, hbound,
      Linker.loadSource_eq .var, Operand.loadSource, hles, hL.schema, Schema.variants, hs, hlen,
      Linker.ok_bind]
  refine ⟨_, L.loadProcedure_returnValue hparam hp hle, fun callee =>
    LoadProcedure.untrailed_run (fun input => ?_) (by rintro ⟨⟩)⟩
  simp [LoadProcedure.body, LoadExpr.eval, load, hL.loadHooked_eq hh, loadOrigin, hs, heval,
    Run.forEach]
  rfl

-- A procedure that only returns does what the target does if its expression does.
theorem links_returnValue (hL : LoadLinker s name? L) {key : GuardKey} {t : Ty} {e : Expr}
    (he : ExprFor s name? t (.var "v1") e)
    (hb : ∀ name b, (name, b) ∈ e.uses s t → Keyed.get? name L.locals = some b)
    (hload : ∀ guarded input, load s.schema s.hooks s.options guarded key input =
      loadInline s.schema s.hooks guarded t input) :
    LinksBody s name? L key [.returnValue e] := by
  intro p hparam hp
  have ⟨le, hle, heval⟩ := hL.link_expr he hb "v1" [] .var
  refine ⟨_, L.loadProcedure_returnValue hparam hp hle, fun callee =>
    LoadProcedure.untrailed_run (fun input => ?_) nofun⟩
  rw [hload]
  simp [LoadProcedure.body, heval, Run.forEach]
  rfl

-- A procedure links to one that does what its target does.
theorem link_procedure (hL : LoadLinker s name? L) (hlocals : L.locals = p.locals)
    (hp : ProcedureFor s name? key p) (hb : p.HelpersBound s) :
    ∃ q, L.loadProcedure p = .ok q ∧ ∀ callee input,
      (q.run s.schema callee input none).untrailed =
        (Target.load s.schema s.hooks s.options (calledLoad name? L.slots callee) key
          input).untrailed := by
  have hparam : Linker.parameter p.signature = .ok "v1" := by
    rw [hp.signature, hL.direction]
    rfl
  have hcls : Keyed.get? "cls" L.locals = some (.type key.subject) := hlocals ▸ hp.cls
  have hb : ∀ name b, (name, b) ∈ bodyUses s key.subject p.body →
      Keyed.get? name L.locals = some b := by
    intro name b hm
    rw [hlocals]
    exact hb name b (hp.uses_eq ▸ hm)
  suffices LinksBody s name? L key p.body from this p hparam rfl
  have hbody := hp.body
  generalize p.body = body at hb hbody
  cases hbody with
  | @loadMapping t fields stmts _ hh hs ha =>
    have hu : ∀ rest, Stmt.usesAll s t fields (keyChecks s fields ++ rest) =
        Stmt.usesAll s t fields rest := by
      intro rest
      unfold keyChecks
      split <;> simp [Stmt.usesAll]
    simp only [bodyUses, GuardKey.subject, Schema.parts, hs, Stmt.usesAll, hu] at hb
    exact hL.links_mapping hcls hh hs ha hb
  | loadSequence _ hh hs ha =>
    simp only [bodyUses, GuardKey.subject, Schema.parts, hs, Stmt.usesAll] at hb
    exact hL.links_sequence hcls hh hs ha hb
  | @loadTuple t ts stmts _ hh hs ha =>
    simp only [bodyUses, GuardKey.subject, Schema.parts, hs] at hb
    apply hL.links_tuple (t := t) hcls hh hs ha
    generalize ts.map Field.ofElement = parts at hb
    simpa only [Stmt.usesAll] using hb
  | dumpMapping hd | dumpSequence hd | dumpTuple hd => cases hL.direction.symm.trans hd
  | @union t variants x es hh hs ha =>
    simp only [bodyUses, GuardKey.subject, Schema.parts, hs, Stmt.usesAll, Expr.uses,
      List.append_nil] at hb
    rw [hL.direction, Direction.param]
    exact hL.links_union hh hs ha (hb _ (.type t) (List.mem_cons_self ..))
      fun name b hm => hb name b (List.mem_cons_of_mem _ hm)
  | value hn he =>
    simp only [bodyUses, GuardKey.subject, Stmt.usesAll, List.append_nil] at hb
    rw [hL.direction, Direction.param] at he
    apply hL.links_returnValue he hb
    intro guarded input
    rw [load_origin_of_not fun h =>
      hn ⟨(Settings.load?_eq_none_iff hL.direction).mp h.left, h.right⟩]
  | slot he =>
    simp only [bodyUses, GuardKey.subject, Stmt.usesAll, List.append_nil, List.headD_cons] at hb
    rw [hL.direction, Direction.param] at he
    apply hL.links_returnValue he hb
    intro guarded input
    simp only [load, List.headD_cons]

end LoadLinker
end TreeCodec
