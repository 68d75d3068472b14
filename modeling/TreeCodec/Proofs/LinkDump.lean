import TreeCodec.Proofs.HelperNames
import TreeCodec.Proofs.LinkLoad
import TreeCodec.Proofs.Sequential

/-!
Compiled dump procedures link, and what they are linked to does what a target does.
-/
namespace TreeCodec

open Target

-- Calls of targets as calls of the procedures that they have in a unit.
def calledDump (name? : GuardKey → Option String) (slots : SlotTable) (callee : Nat → Dump.Rule)
    (key : GuardKey) : Dump.Rule :=
  match (name? key).bind slots.dump? with
  | some i => callee i
  | none => fun _ => Run.unfinished

-- What the names in a dump procedure are resolved against, where its helpers are bound as they
-- should be.
structure DumpLinker (s : Settings) (name? : GuardKey → Option String) (L : Linker) : Prop where
  direction : s.direction = .dump
  schema    : L.schema = s.schema
  resolves  : ∀ key p, name? key = some p → ∃ i, Keyed.get? p L.slots = some (.dump i)

theorem Linker.depth_base (arg : Operand) (scope : Scope) : depth (arg.base :: scope) arg = .ok 0 := by
  have hx : List.idxOf? arg.base (arg.base :: scope) = some 0 := by
    simp [List.idxOf?, List.findIdx?, List.findIdx?.go]
  simp only [depth, hx]

theorem Linker.dumpSource_var (L : Linker) (x : String) (scope : Scope) :
    L.dumpSource (x :: scope) (.var x) = .ok (.var 0) := by
  have hd : depth (x :: scope) (.var x) = .ok 0 := depth_base (.var x) scope
  simp only [dumpSource, hd, ok_bind]
  rfl

theorem Linker.type_eq {L : Linker} {name : String} {t : Ty}
    (h : Keyed.get? name L.locals = some (.type t)) : L.type name = .ok t := by
  simp only [type, binding, h]
  rfl

theorem Linker.dumpSource_attr {L : Linker} {x owner : String} {t : Ty} {fields : List Field}
    {positional : Bool} (ho : Keyed.get? owner L.locals = some (.type t))
    (hs : L.schema.shape t = .record fields positional) {i : Nat} (hi : i < fields.length)
    (name : String) : L.dumpSource [x] (.attr x owner i name) = .ok (.attr 0 t i name) := by
  have hd : depth [x] (.attr x owner i name) = .ok 0 := depth_base (.attr x owner i name) []
  have hf : L.schema.fields t = .ok (fields, positional) := by simp [Schema.fields, hs]
  simp only [dumpSource, hd, ok_bind, type_eq ho, hf, hi, if_true]
  rfl

theorem Linker.dumpSource_element {L : Linker} {x owner : String} {t : Ty} {ts : List Ty}
    (ho : Keyed.get? owner L.locals = some (.type t)) (hs : L.schema.shape t = .tuple ts) {i : Nat}
    (hi : i < ts.length) : L.dumpSource [x] (.element x owner i) = .ok (.element 0 t i) := by
  have hd : depth [x] (.element x owner i) = .ok 0 := depth_base (.element x owner i) []
  have he : L.schema.elements t = .ok ts := by simp [Schema.elements, hs]
  simp only [dumpSource, hd, ok_bind, type_eq ho, he, hi, if_true]
  rfl

theorem DumpSource.feed_var (S : Schema) (v : Value) (frame : DumpFrame) (rule : Dump.Rule) :
    feed S (v :: frame) rule (.var 0) = rule v :=
  rfl

theorem DumpSource.feed_attr (S : Schema) (t : Ty) (v : Value) (i : Nat) (name : String)
    (rule : Dump.Rule) :
    feed S [v] rule (.attr 0 t i name) =
      (Direct.dumpPart rule (S.getField t i v)).within (.key name) :=
  rfl

theorem DumpSource.feed_element (S : Schema) (t : Ty) (v : Value) (i : Nat) (rule : Dump.Rule) :
    feed S [v] rule (.element 0 t i) =
      (Direct.dumpPart rule (S.getElement t i v)).within (.index i) :=
  rfl

namespace DumpLinker

variable {s : Settings} {name? : GuardKey → Option String} {L : Linker}

theorem dumpHooked_eq (hL : DumpLinker s name? L) {t : Ty} {rule : Dump.Rule}
    (h : s.hook? t = none) : Direct.dumpHooked s.hooks t rule = rule := by
  simp [Direct.dumpHooked, (Settings.dump?_eq_none_iff hL.direction).mpr h]

theorem link_expr (hL : DumpLinker s name? L) {t : Ty} {arg : Operand} {e : Expr}
    (he : ExprFor s name? t arg e) :
    (∀ name b, (name, b) ∈ e.uses s t → Keyed.get? name L.locals = some b) →
    ∀ (scope : Scope) (source : DumpSource), L.dumpSource scope arg = .ok source →
    ∃ de, L.dumpExpr e scope = .ok de ∧ ∀ callee frame,
      de.eval s.schema callee frame =
        source.feed s.schema frame
          (dumpInline s.schema s.hooks (calledDump name? L.slots callee) t) := by
  induction he with
  | @hook t arg b hh =>
    intro hb scope source harg
    obtain ⟨f, hf, he⟩ := Settings.dump?_of_hook? hL.direction hh
    have hbound := hb (s.schema.hookName t) b (by simp [Expr.uses, hh])
    refine ⟨.hook source f, ?_, fun callee frame => ?_⟩
    · simp [Linker.dumpExpr, harg, Linker.binding, hbound, he]
      rfl
    · simp only [DumpExpr.eval]
      rw [dumpInline_hooked hf]
  | @leaf t arg hh hl =>
    intro hb scope source harg
    have hbound := hb (s.schema.leafName t) (.type t) (by simp [Expr.uses, hh])
    rcases hl with ⟨k, hk⟩ | hk
    case inl =>
      refine ⟨.scalar source k, ?_, fun callee frame => ?_⟩
      · simp [Linker.dumpExpr, harg, Linker.binding, hbound, hL.schema, hk, Linker.ok_bind]
      · rw [dumpInline_scalar hk, hL.dumpHooked_eq hh, DumpExpr.eval]
    case inr =>
      refine ⟨.tree source t, ?_, fun callee frame => ?_⟩
      · simp [Linker.dumpExpr, harg, Linker.binding, hbound, hL.schema, hk, Linker.ok_bind]
      · rw [dumpInline_dynamic hk, hL.dumpHooked_eq hh, DumpExpr.eval]
  | @call t arg p hh hp hn =>
    intro _ scope source harg
    obtain ⟨i, hi⟩ := hL.resolves _ _ hn
    refine ⟨.call source i, ?_, fun callee frame => ?_⟩
    · simp [Linker.dumpExpr, harg, Linker.procedure, hi]
      rfl
    · rw [dumpInline_call hp, hL.dumpHooked_eq hh, DumpExpr.eval]
      simp [calledDump, hn, SlotTable.dump?, hi]
  | @optional u arg x e hh _ ih =>
    intro hb scope source harg
    have hbound := hb _ (.type (.optional u)) (List.mem_cons_self ..)
    obtain ⟨de, hde, heval⟩ := ih (fun name b hm => hb name b (List.mem_cons_of_mem _ hm))
      (x :: scope) _ (L.dumpSource_var x scope)
    refine ⟨.optional source (.optional u) de, ?_, fun callee frame => ?_⟩
    · simp [Linker.dumpExpr, harg, Linker.helper, Linker.type, Linker.binding, hbound, hde,
        Schema.option, Schema.shape]
      rfl
    · simp only [DumpExpr.eval, heval, dumpInline, hL.dumpHooked_eq hh]
      rfl
  | @boxed u arg x e hh _ ih =>
    intro hb scope source harg
    have hbound := hb _ (.type (.boxed u)) (List.mem_cons_self ..)
    obtain ⟨de, hde, heval⟩ := ih (fun name b hm => hb name b (List.mem_cons_of_mem _ hm))
      (x :: scope) _ (L.dumpSource_var x scope)
    refine ⟨.boxed source (.boxed u) de, ?_, fun callee frame => ?_⟩
    · simp [Linker.dumpExpr, harg, Linker.helper, Linker.type, Linker.binding, hbound, hde,
        Schema.box, Schema.shape]
      rfl
    · simp only [DumpExpr.eval, heval, dumpInline, hL.dumpHooked_eq hh]
      rfl
  | @list k u arg x e hh _ ih =>
    intro hb scope source harg
    have hbound := hb _ (.type (.list k u)) (List.mem_cons_self ..)
    obtain ⟨de, hde, heval⟩ := ih (fun name b hm => hb name b (List.mem_cons_of_mem _ hm))
      (x :: scope) _ (L.dumpSource_var x scope)
    refine ⟨.list source (.list k u) de, ?_, fun callee frame => ?_⟩
    · simp [Linker.dumpExpr, harg, Linker.helper, Linker.type, Linker.binding, hbound, hde,
        Schema.item, Schema.shape]
      rfl
    · simp only [DumpExpr.eval, heval, dumpInline, hL.dumpHooked_eq hh]
      rfl
  | @map k u v arg x y e f hh _ _ ihk ihv =>
    intro hb scope source harg
    have hbound := hb _ (.type (.map k u v)) (List.mem_cons_self ..)
    obtain ⟨dk, hdk, hevalk⟩ := ihk
      (fun name b hm => hb name b (List.mem_cons_of_mem _ (List.mem_append_left _ hm)))
      (x :: scope) _ (L.dumpSource_var x scope)
    obtain ⟨dv, hdv, hevalv⟩ := ihv
      (fun name b hm => hb name b (List.mem_cons_of_mem _ (List.mem_append_right _ hm)))
      (y :: scope) _ (L.dumpSource_var y scope)
    refine ⟨.map source (.map k u v) k dk dv, ?_, fun callee frame => ?_⟩
    · simp [Linker.dumpExpr, harg, Linker.helper, Linker.type, Linker.binding, hbound, hdk, hdv,
        Schema.entry, Schema.shape]
      rfl
    · simp only [DumpExpr.eval, hevalk, hevalv, dumpInline, hL.dumpHooked_eq hh]
      rfl

theorem link_field (hL : DumpLinker s name? L) {f : Field} {arg : Operand} {e : Expr}
    (he : FieldExpr s name? f arg e)
    (hb : ∀ name b, (name, b) ∈ e.uses s f.ty → Keyed.get? name L.locals = some b)
    {scope : Scope} {source : DumpSource} (harg : L.dumpSource scope arg = .ok source) :
    ∃ de, L.dumpExpr e scope = .ok de ∧ ∀ callee frame,
      de.eval s.schema callee frame =
        source.feed s.schema frame
          (dumpField s.schema s.hooks (calledDump name? L.slots callee) f) := by
  cases he with
  | @slot i p hp hn =>
    obtain ⟨i, hi⟩ := hL.resolves _ _ hn
    refine ⟨.call source i, ?_, fun callee frame => ?_⟩
    · simp [Linker.dumpExpr, harg, Linker.procedure, hi]
      rfl
    · simp [DumpExpr.eval, dumpField, hp, calledDump, hn, SlotTable.dump?, hi]
  | inline hp he =>
    obtain ⟨de, hde, heval⟩ := hL.link_expr he hb scope source harg
    refine ⟨de, hde, fun callee frame => ?_⟩
    rw [heval, dumpField]
    simp [hp]

theorem link_alternatives (hL : DumpLinker s name? L) {x : String} {variants : List Variant}
    {es : List Expr} (h : Alternatives s name? x variants es)
    (hb : ∀ name b, (name, b) ∈ Expr.usesAll s es (variants.map Variant.ty) →
      Keyed.get? name L.locals = some b) (scope : Scope) :
    ∃ des, L.dumpExprs es (x :: scope) = .ok des ∧ ∀ callee frame,
      DumpExpr.evalList s.schema callee des frame = variants.map fun v =>
        dumpInline s.schema s.hooks (calledDump name? L.slots callee) v.ty := by
  induction h with
  | nil => exact ⟨[], by simp [Linker.dumpExprs]; rfl, fun _ _ => rfl⟩
  | @cons v e variants es he _ ih =>
    obtain ⟨de, hde, heval⟩ := hL.link_expr he
      (fun name b hm => hb name b (List.mem_append_left _ hm)) (x :: scope) _
      (L.dumpSource_var x scope)
    obtain ⟨des, hdes, hevals⟩ := ih fun name b hm => hb name b (List.mem_append_right _ hm)
    refine ⟨de :: des, ?_, fun callee frame => ?_⟩
    · simp [Linker.dumpExprs, hde, hdes]
      rfl
    · simp only [DumpExpr.evalList, List.map_cons, hevals, heval]
      rfl

-- The insertions of the fields of a record put them under their keys one after the other.
theorem link_insertions (hL : DumpLinker s name? L) {t : Ty} {fields : List Field}
    (hsource : ∀ i (f : Field), i < fields.length →
      L.dumpSource ["o"] (.attr "o" "cls" i f.name) = .ok (.attr 0 t i f.name))
    {i : Nat} {fs : List Field} {stmts : List Stmt}
    (h : Outputs s name? (fun i f => .attr "o" "cls" i f.name)
      (fun f e => .insert f.key e s.options.omitNull) i fs stmts)
    (hi : i + fs.length ≤ fields.length)
    (hb : ∀ name b, (name, b) ∈ Stmt.usesAll s t fs (stmts ++ [.returnOutput]) →
      Keyed.get? name L.locals = some b) :
    ∃ is, L.insertions "o" (stmts ++ [.returnOutput]) = .ok (is, []) ∧ ∀ callee v entries,
      DumpProcedure.insertAll s.schema callee [v] entries is >>= (fun es => pure (.object es)) =
        Direct.dumpMapping s.schema s.options t v i entries
          (fs.map fun f => (f, dumpField s.schema s.hooks (calledDump name? L.slots callee) f)) := by
  induction h with
  | nil => exact ⟨[], by simp [Linker.insertions], fun _ _ _ => rfl⟩
  | @cons i f fs e stmts he _ ih =>
    simp only [List.length_cons] at hi
    simp only [List.cons_append, Stmt.usesAll, List.mem_append] at hb
    obtain ⟨is, his, heval⟩ := ih (by omega) fun name b hm => hb name b (.inr hm)
    obtain ⟨de, hde, hev⟩ := hL.link_field he (fun name b hm => hb name b (.inl hm))
      (hsource i f (by omega))
    refine ⟨⟨f.key, de, s.options.omitNull⟩ :: is, ?_, fun callee v entries => ?_⟩
    · simp [Linker.insertions, hde, his]
      rfl
    · simp only [DumpProcedure.insertAll, List.map_cons, Direct.dumpMapping, hev,
        DumpSource.feed_attr, Run.bind_assoc, heval]

-- The parts of a sequence are pushed one after the other.
theorem link_pushes (hL : DumpLinker s name? L) {t : Ty} {n : Nat}
    {operand : Nat → Field → Operand} {source : Nat → Field → DumpSource}
    (hsource : ∀ i f, i < n → L.dumpSource ["o"] (operand i f) = .ok (source i f))
    {i : Nat} {fs : List Field} {stmts : List Stmt}
    (h : Outputs s name? operand (fun _ e => .push e) i fs stmts) (hi : i + fs.length ≤ n)
    (hb : ∀ name b, (name, b) ∈ Stmt.usesAll s t fs (stmts ++ [.returnOutput]) →
      Keyed.get? name L.locals = some b) :
    ∃ des, L.pushes "o" (stmts ++ [.returnOutput]) = .ok (des, []) ∧ ∀ callee v,
      Run.forEach (fun _ de => de.eval s.schema callee [v]) i des =
        Run.forEach (fun i f => (source i f).feed s.schema [v]
          (dumpField s.schema s.hooks (calledDump name? L.slots callee) f)) i fs := by
  induction h with
  | nil => exact ⟨[], by simp [Linker.pushes], fun _ _ => rfl⟩
  | @cons i f fs e stmts he _ ih =>
    simp only [List.length_cons] at hi
    simp only [List.cons_append, Stmt.usesAll, List.mem_append] at hb
    obtain ⟨des, hdes, heval⟩ := ih (by omega) fun name b hm => hb name b (.inr hm)
    obtain ⟨de, hde, hev⟩ := hL.link_field he (fun name b hm => hb name b (.inl hm))
      (hsource i f (by omega))
    refine ⟨de :: des, ?_, fun callee v => ?_⟩
    · simp [Linker.pushes, hde, hdes]
      rfl
    · simp only [Run.forEach, hev, heval]

-- A body links to one that does what the target does.
def LinksBody (s : Settings) (name? : GuardKey → Option String) (L : Linker) (key : GuardKey)
    (body : List Stmt) : Prop :=
  ∃ linked, L.dumpBody "o" body = .ok (linked, []) ∧ ∀ name callee v,
    DumpProcedure.evalBody s.schema callee ⟨name, linked⟩ v =
      Target.dump s.schema s.hooks s.options (calledDump name? L.slots callee) key v

theorem links_mapping (hL : DumpLinker s name? L) {t : Ty} {fields : List Field}
    {stmts : List Stmt} (hcls : Keyed.get? "cls" L.locals = some (.type t))
    (hh : s.hook? t = none) (hs : s.schema.shape t = .record fields false)
    (ho : Outputs s name? (fun i f => .attr "o" "cls" i f.name)
      (fun f e => .insert f.key e s.options.omitNull) 0 fields stmts)
    (hb : ∀ name b, (name, b) ∈ Stmt.usesAll s t fields (stmts ++ [.returnOutput]) →
      Keyed.get? name L.locals = some b) :
    LinksBody s name? L (.origin t) (.openMapping :: (stmts ++ [.returnOutput])) := by
  have ⟨is, his, heval⟩ := hL.link_insertions
    (fun i f hi => Linker.dumpSource_attr hcls (hL.schema ▸ hs) hi f.name) ho (by simp) hb
  refine ⟨.mapping is, by simp [Linker.dumpBody, his], fun name callee v => ?_⟩
  simp only [DumpProcedure.evalBody, heval, Target.dump, hL.dumpHooked_eq hh, dumpOrigin, hs]
  rfl

theorem links_sequence (hL : DumpLinker s name? L) {t : Ty} {fields : List Field}
    {stmts : List Stmt} (hcls : Keyed.get? "cls" L.locals = some (.type t))
    (hh : s.hook? t = none) (hs : s.schema.shape t = .record fields true)
    (ho : Outputs s name? (fun i f => .attr "o" "cls" i f.name) (fun _ e => .push e) 0 fields stmts)
    (hb : ∀ name b, (name, b) ∈ Stmt.usesAll s t fields (stmts ++ [.returnOutput]) →
      Keyed.get? name L.locals = some b) :
    LinksBody s name? L (.origin t) (.openSequence :: (stmts ++ [.returnOutput])) := by
  have ⟨des, hdes, heval⟩ := hL.link_pushes (t := t)
    (fun i f hi => Linker.dumpSource_attr hcls (hL.schema ▸ hs) hi f.name) ho (by simp) hb
  refine ⟨.sequence des, by simp [Linker.dumpBody, hdes], fun name callee v => ?_⟩
  simp only [DumpProcedure.evalBody, heval, Target.dump, hL.dumpHooked_eq hh, dumpOrigin, hs,
    if_true, Direct.dumpSequence, Run.forEach_map, DumpSource.feed_attr]

theorem links_tuple (hL : DumpLinker s name? L) {t : Ty} {ts : List Ty} {stmts : List Stmt}
    (hcls : Keyed.get? "cls" L.locals = some (.type t)) (hh : s.hook? t = none)
    (hs : s.schema.shape t = .tuple ts)
    (ho : Outputs s name? (fun i _ => .element "o" "cls" i) (fun _ e => .push e) 0
      (ts.map .ofElement) stmts)
    (hb : ∀ name b, (name, b) ∈ Stmt.usesAll s t (ts.map .ofElement) (stmts ++ [.returnOutput]) →
      Keyed.get? name L.locals = some b) :
    LinksBody s name? L (.origin t) (.openSequence :: (stmts ++ [.returnOutput])) := by
  have ⟨des, hdes, heval⟩ := hL.link_pushes (t := t)
    (fun i _ hi => Linker.dumpSource_element hcls (hL.schema ▸ hs) hi) ho (by simp) hb
  refine ⟨.sequence des, by simp [Linker.dumpBody, hdes], fun name callee v => ?_⟩
  simp only [DumpProcedure.evalBody, heval, Target.dump, hL.dumpHooked_eq hh, dumpOrigin, hs,
    Direct.dumpTuple, Run.forEach_map, DumpSource.feed_element, dumpField, Field.ofElement]

theorem links_union (hL : DumpLinker s name? L) {t : Ty} {variants : List Variant} {x : String}
    {es : List Expr} (hh : s.hook? t = none) (hs : s.schema.shape t = .union variants)
    (ha : Alternatives s name? x variants es)
    (hbound : Keyed.get? (s.schema.helperName "union" t) L.locals = some (.type t))
    (hb : ∀ name b, (name, b) ∈ Expr.usesAll s es (variants.map Variant.ty) →
      Keyed.get? name L.locals = some b) :
    LinksBody s name? L (.origin t)
      [.returnValue (.union (s.schema.helperName "union" t) (.var "o") x es)] := by
  have ⟨des, hdes, heval⟩ := hL.link_alternatives ha hb ["o"]
  have hlen : variants.length = es.length := ha.length_eq
  refine ⟨.value (.union (.var 0) t des), ?_, fun name callee v => ?_⟩
  · simp [Linker.dumpBody, Linker.dumpExpr, Linker.unionHelper, Linker.helper, Linker.type_eq hbound,
      Linker.dumpSource_var, hdes, hL.schema, Schema.variants, hs, hlen, Linker.ok_bind]
  · simp only [DumpProcedure.evalBody, DumpExpr.eval, Target.dump, hL.dumpHooked_eq hh, dumpOrigin,
      hs, heval, DumpSource.feed_var]

-- A procedure that only returns does what the target does if its expression does.
theorem links_returnValue (hL : DumpLinker s name? L) {key : GuardKey} {t : Ty} {e : Expr}
    (he : ExprFor s name? t (.var "o") e)
    (hb : ∀ name b, (name, b) ∈ e.uses s t → Keyed.get? name L.locals = some b)
    (hdump : ∀ guarded v, Target.dump s.schema s.hooks s.options guarded key v =
      dumpInline s.schema s.hooks guarded t v) :
    LinksBody s name? L key [.returnValue e] := by
  have ⟨de, hde, heval⟩ := hL.link_expr he hb ["o"] _ (L.dumpSource_var "o" [])
  refine ⟨.value de, by simp [Linker.dumpBody, hde], fun name callee v => ?_⟩
  rw [hdump]
  simp only [DumpProcedure.evalBody, heval, DumpSource.feed_var]

theorem link_procedure (hL : DumpLinker s name? L) {key : GuardKey} {p : Procedure}
    (hlocals : L.locals = p.locals) (hp : ProcedureFor s name? key p) (hb : p.HelpersBound s) :
    ∃ q, L.dumpProcedure p = .ok q ∧ ∀ callee v,
      (q.run s.schema callee v).untrailed =
        (Target.dump s.schema s.hooks s.options (calledDump name? L.slots callee) key
          v).untrailed := by
  have hparam : Linker.parameter p.signature = .ok "o" := by
    rw [hp.signature, hL.direction]
    rfl
  have hcls : Keyed.get? "cls" L.locals = some (.type key.subject) := hlocals ▸ hp.cls
  have hb : ∀ name b, (name, b) ∈ bodyUses s key.subject p.body →
      Keyed.get? name L.locals = some b := by
    intro name b hm
    rw [hlocals]
    exact hb name b (hp.uses_eq ▸ hm)
  -- A procedure links if its body does, and it does what its body does.
  suffices LinksBody s name? L key p.body by
    obtain ⟨body, hbody, heval⟩ := this
    refine ⟨⟨p.name, body⟩, ?_, fun callee v => ?_⟩
    · simp [Linker.dumpProcedure, hparam, hbody, Linker.ok_bind, Linker.nothing]
    · rw [DumpProcedure.run, Run.untrailed_through, heval]
  have hbody := hp.body
  generalize p.body = body at hb hbody
  cases hbody with
  | loadMapping hd | loadSequence hd | loadTuple hd => cases hL.direction.symm.trans hd
  | dumpMapping _ hh hs ho =>
    simp only [bodyUses, GuardKey.subject, Schema.parts, hs, Stmt.usesAll] at hb
    exact hL.links_mapping hcls hh hs ho hb
  | dumpSequence _ hh hs ho =>
    simp only [bodyUses, GuardKey.subject, Schema.parts, hs, Stmt.usesAll] at hb
    exact hL.links_sequence hcls hh hs ho hb
  | @dumpTuple t ts stmts _ hh hs ho =>
    simp only [bodyUses, GuardKey.subject, Schema.parts, hs] at hb
    apply hL.links_tuple (t := t) hcls hh hs ho
    generalize ts.map Field.ofElement = parts at hb
    simpa only [Stmt.usesAll] using hb
  | @union t variants x es hh hs ha =>
    simp only [bodyUses, GuardKey.subject, Schema.parts, hs, Stmt.usesAll, Expr.uses,
      List.append_nil] at hb
    rw [hL.direction, Direction.param]
    exact hL.links_union hh hs ha (hb _ (.type t) (List.mem_cons_self ..))
      fun name b hm => hb name b (List.mem_cons_of_mem _ hm)
  | value hn he =>
    simp only [bodyUses, GuardKey.subject, Stmt.usesAll, List.append_nil] at hb
    rw [hL.direction, Direction.param] at he
    apply hL.links_returnValue he hb
    intro guarded v
    rw [dump_origin_of_not fun h =>
      hn ⟨(Settings.dump?_eq_none_iff hL.direction).mp h.left, h.right⟩]
  | slot he =>
    simp only [bodyUses, GuardKey.subject, Stmt.usesAll, List.append_nil, List.headD_cons] at hb
    rw [hL.direction, Direction.param] at he
    apply hL.links_returnValue he hb
    intro guarded v
    simp only [Target.dump, List.headD_cons]

end DumpLinker
end TreeCodec
