import TreeCodec.Procedure.WellFormed
import TreeCodec.Proofs.DumpUnit

/-!
The linker accepts well-formed procedures: what `WellFormedProcedure` asks of each part of a
procedure is what the linker checks of it.
-/
namespace TreeCodec

open WellFormed

-- The place of a procedure of a direction among those of the direction.
def Direction.slot : Direction → Nat → Slot
  | load => .load
  | dump => .dump

namespace Linker

variable {L : Linker} {procedures : List Procedure} {scope : Scope}

-- Procedures that are there have their places.
def Places (L : Linker) (procedures : List Procedure) (d : Direction) : Prop :=
  ∀ name, Defined procedures d name → ∃ i, Keyed.get? name L.slots = some (d.slot i)

theorem pure_bind {ε α β : Type} (a : α) (f : α → Except ε β) :
    ((pure a : Except ε α) >>= f) = f a :=
  rfl

section Operands

variable {arg : Operand}

theorem exists_depth (h : arg.base ∈ scope) : ∃ up, depth scope arg = .ok up := by
  unfold depth
  cases hi : scope.idxOf? arg.base with
  | some up => exact ⟨up, rfl⟩
  | none => exact absurd h <| by simpa [List.idxOf?_eq_none_iff] using hi

theorem exists_loadSource (h : ReadsTree scope arg) : ∃ s, loadSource scope arg = .ok s := by
  have hbase : arg.base ∈ scope := by cases h <;> assumption
  have ⟨up, hd⟩ := exists_depth hbase
  cases h <;> exact ⟨_, by simp only [loadSource, hd, ok_bind]; rfl⟩

theorem exists_dumpSource (h : ReadsValue L.schema L.locals scope arg) :
    ∃ s, L.dumpSource scope arg = .ok s := by
  have hbase : arg.base ∈ scope := by cases h <;> assumption
  have ⟨up, hd⟩ := exists_depth hbase
  cases h with
  | var => exact ⟨_, by simp only [dumpSource, hd, ok_bind]; rfl⟩
  | @attr _ owner _ _ t fields positional _ hb hi =>
    have hf : L.schema.fields t = .ok (fields, positional) := by simp [Schema.fields, hb.right]
    exact ⟨_, by simp only [dumpSource, hd, ok_bind, type_eq hb.left, hf, hi, if_true]; rfl⟩
  | @element _ owner _ t elements _ hb hi =>
    have he : L.schema.elements t = .ok elements := by simp [Schema.elements, hb.right]
    exact ⟨_, by simp only [dumpSource, hd, ok_bind, type_eq hb.left, he, hi, if_true]; rfl⟩

end Operands

section Helpers

variable {name : String} {t : Ty}

theorem helper_eq {α : Type} {view : Ty → Except KindMismatch α} {a : α}
    (h : Keyed.get? name L.locals = some (.type t)) (hv : view t = .ok a) :
    L.helper name view = .ok (t, a) := by
  simp only [helper, type_eq h, ok_bind, hv]
  rfl

theorem helper_option {u : Ty} (h : Bound L.schema L.locals name t (.optional u)) :
    L.helper name L.schema.option = .ok (t, u) :=
  helper_eq h.left <| by simp [Schema.option, h.right]

theorem helper_box {u : Ty} (h : Bound L.schema L.locals name t (.boxed u)) :
    L.helper name L.schema.box = .ok (t, u) :=
  helper_eq h.left <| by simp [Schema.box, h.right]

theorem helper_item {u : Ty} (h : Bound L.schema L.locals name t (.list u)) :
    L.helper name L.schema.item = .ok (t, u) :=
  helper_eq h.left <| by simp [Schema.item, h.right]

theorem helper_entry {kind : MapKind} {u v : Ty}
    (h : Bound L.schema L.locals name t (.map kind u v)) :
    L.helper name L.schema.entry = .ok (t, kind, u, v) :=
  helper_eq h.left <| by simp [Schema.entry, h.right]

theorem unionHelper_eq {given : Nat} {variants : List Variant}
    (h : Bound L.schema L.locals name t (.union variants)) (hg : given = variants.length) :
    L.unionHelper name given = .ok (t, variants) := by
  have hv : L.helper name L.schema.variants = .ok (t, variants) :=
    helper_eq h.left <| by simp [Schema.variants, h.right]
  simp only [unionHelper, hv, ok_bind, hg, if_true]
  rfl

theorem Places.procedure_eq {d : Direction} (hp : L.Places procedures d)
    (h : Defined procedures d name) : ∃ i, L.procedure name d = .ok i := by
  have ⟨i, hi⟩ := hp name h
  cases d <;> exact ⟨i, by simp only [procedure, hi, Direction.slot]⟩

end Helpers

section Load

variable {x : String}

theorem exists_loadExprs {es : List Expr} (h : ∀ e ∈ es, ∃ le, L.loadExpr e scope = .ok le) :
    ∃ les, L.loadExprs es scope = .ok les := by
  induction es with
  | nil => exact ⟨[], by simp only [loadExprs]; rfl⟩
  | cons e es ih =>
    have ⟨le, hle⟩ := h e (List.mem_cons_self ..)
    have ⟨les, hles⟩ := ih fun e he => h e (List.mem_cons_of_mem _ he)
    exact ⟨le :: les, by simp only [loadExprs, hle, hles, ok_bind]; rfl⟩

theorem exists_loadExpr (hp : L.Places procedures .load) {e : Expr}
    (h : WellFormedExpr L.schema procedures L.locals .load scope e) :
    ∃ le, L.loadExpr e scope = .ok le := by
  induction h with
  | leaf hr hl =>
    obtain ⟨s, hs⟩ := exists_loadSource hr
    cases hl with
    | scalar hb | dynamic hb =>
      exact ⟨_, by simp only [loadExpr, hs, ok_bind, binding, hb.left, hb.right]; rfl⟩
    | loadHook _ hb => exact ⟨_, by simp only [loadExpr, hs, ok_bind, binding, hb]; rfl⟩
    | dumpHook hd => cases hd
  | call hr hn =>
    obtain ⟨s, hs⟩ := exists_loadSource hr
    obtain ⟨i, hi⟩ := hp.procedure_eq hn
    exact ⟨_, by simp only [loadExpr, hi, hs, ok_bind]; rfl⟩
  | optional hr hb _ ih =>
    obtain ⟨s, hs⟩ := exists_loadSource hr
    obtain ⟨le, hle⟩ := ih
    exact ⟨_, by simp only [loadExpr, helper_option hb, hs, hle, ok_bind]; rfl⟩
  | boxed hr hb _ ih =>
    obtain ⟨s, hs⟩ := exists_loadSource hr
    obtain ⟨le, hle⟩ := ih
    exact ⟨_, by simp only [loadExpr, helper_box hb, hs, hle, ok_bind]; rfl⟩
  | list hr hb _ ih =>
    obtain ⟨s, hs⟩ := exists_loadSource hr
    obtain ⟨le, hle⟩ := ih
    exact ⟨_, by simp only [loadExpr, helper_item hb, hs, hle, ok_bind]; rfl⟩
  | map hr hb _ _ ihk ihe =>
    obtain ⟨s, hs⟩ := exists_loadSource hr
    obtain ⟨lk, hlk⟩ := ihk
    obtain ⟨le, hle⟩ := ihe
    exact ⟨_, by simp only [loadExpr, helper_entry hb, hs, hlk, hle, ok_bind]; rfl⟩
  | union hr hb hn _ ih =>
    obtain ⟨s, hs⟩ := exists_loadSource hr
    obtain ⟨les, hles⟩ := exists_loadExprs ih
    exact ⟨_, by simp only [loadExpr, unionHelper_eq hb hn, hs, hles, ok_bind]; rfl⟩

-- Statements that do not begin with a check of the parameter.
structure Unchecked (x : String) (stmts : List Stmt) : Prop where
  expectation : expectation x stmts = .ok (none, stmts)
  knownKeys   : ∀ checked, knownKeys x checked stmts = .ok (none, stmts)

theorem Unchecked.of_checks {stmts checks : List Stmt} (hu : Unchecked x stmts)
    (h : Checks x checks) :
    ∃ checked keys rest, Linker.expectation x (checks ++ stmts) = .ok (checked, rest) ∧
      Linker.knownKeys x checked rest = .ok (keys, stmts) := by
  cases h with
  | none => exact ⟨none, none, stmts, hu.expectation, hu.knownKeys _⟩
  | mapping =>
    refine ⟨some .mapping, none, stmts, ?_, hu.knownKeys _⟩
    simp only [List.cons_append, List.nil_append, Linker.expectation, if_true]
  | @knownKeys keys =>
    refine ⟨some .mapping, some keys, .rejectUnknownKeys (.var x) keys :: stmts, ?_, ?_⟩
    · simp only [List.cons_append, List.nil_append, Linker.expectation, if_true]
    · simp only [Linker.knownKeys, and_self, if_true]
  | @sequence min len hle =>
    refine ⟨some (.sequence min len), none, stmts, ?_, hu.knownKeys _⟩
    simp only [List.cons_append, List.nil_append, Linker.expectation, if_true,
      if_neg (Nat.not_lt.mpr hle)]

theorem unchecked_assigns {last : Stmt} {assigns : List Stmt} {slot stop assigned : Nat}
    (h : WellFormed.Assigns L.schema procedures L.locals x slot stop assigns)
    (hl : Results L.schema procedures L.locals x assigned last) :
    Unchecked x (assigns ++ [last]) := by
  cases h with
  | nil => cases hl <;> exact ⟨rfl, fun _ => rfl⟩
  | cons => exact ⟨rfl, fun _ => rfl⟩

theorem default_eq {name : String} {v : Value}
    (h : Keyed.get? name L.locals = some (.default v)) : L.default name = .ok v := by
  simp only [Linker.default, binding, h, ok_bind]
  rfl

theorem exists_assignments (hp : L.Places procedures .load) {last : Stmt} {assigns : List Stmt}
    {slot stop assigned : Nat}
    (h : WellFormed.Assigns L.schema procedures L.locals x slot stop assigns)
    (hl : Results L.schema procedures L.locals x assigned last) :
    ∃ as, L.assignments x slot (assigns ++ [last]) = .ok (as, [last]) ∧
      slot + as.length = stop := by
  induction h with
  | nil => cases hl <;> exact ⟨[], rfl, rfl⟩
  | @cons slot stop arg e default rest hr he hd _ ih =>
    obtain ⟨s, hs⟩ := exists_loadSource hr
    obtain ⟨le, hle⟩ := exists_loadExpr hp he
    obtain ⟨as, has, hstop⟩ := ih
    cases default with
    | none =>
      refine ⟨⟨s, le, none⟩ :: as, ?_, by simpa [Nat.add_right_comm, ← Nat.add_assoc] using hstop⟩
      simp only [List.cons_append, assignments, ne_eq, not_true_eq_false, if_false, pure_bind, hs,
        hle, has, ok_bind]
      rfl
    | some name =>
      obtain ⟨v, hv⟩ := hd name rfl
      refine ⟨⟨s, le, some v⟩ :: as, ?_, by simpa [Nat.add_right_comm, ← Nat.add_assoc] using hstop⟩
      simp only [List.cons_append, assignments, ne_eq, not_true_eq_false, if_false, default_eq hv,
        hs, hle, has, ok_bind]
      rfl

theorem exists_loadResult (hp : L.Places procedures .load) {last : Stmt} {assigned : Nat}
    (h : Results L.schema procedures L.locals x assigned last) :
    ∃ r, L.loadResult x assigned [last] = .ok (r, []) := by
  cases h with
  | @record _ t _ _ hb hn | @tuple _ t _ hb hn =>
    refine ⟨.construct t, ?_⟩
    simp only [loadResult, type_eq hb.left, hb.right, ok_bind, pure_bind, hn, if_true]
    rfl
  | value hn he =>
    obtain ⟨le, hle⟩ := exists_loadExpr hp he
    exact ⟨_, by simp only [loadResult, hn, hle, ok_bind]; rfl⟩

theorem exists_loadProcedure (hp : L.Places procedures .load) {p : Procedure}
    (hx : p.signature.valueParam? = some x)
    (h : LoadBody L.schema procedures L.locals x p.body) :
    ∃ q, L.loadProcedure p = .ok q := by
  have ⟨checks, assigns, last, assigned, hbody, hc, ha, hr⟩ := h
  have ⟨checked, keys, rest, hexp, hkeys⟩ := (unchecked_assigns ha hr).of_checks hc
  have ⟨as, has, hlen⟩ := exists_assignments hp ha hr
  have ⟨r, hres⟩ := exists_loadResult hp hr
  rw [Nat.zero_add] at hlen
  rw [← List.append_assoc, ← hbody] at hexp
  refine ⟨⟨p.name, checked, keys, as, r⟩, ?_⟩
  simp only [loadProcedure, parameter, hx, hexp, hkeys, has, hlen, hres, ok_bind, nothing]
  rfl

end Load

section Dump

variable {x : String}

theorem exists_dumpExprs {es : List Expr} (h : ∀ e ∈ es, ∃ de, L.dumpExpr e scope = .ok de) :
    ∃ des, L.dumpExprs es scope = .ok des := by
  induction es with
  | nil => exact ⟨[], by simp only [dumpExprs]; rfl⟩
  | cons e es ih =>
    have ⟨de, hde⟩ := h e (List.mem_cons_self ..)
    have ⟨des, hdes⟩ := ih fun e he => h e (List.mem_cons_of_mem _ he)
    exact ⟨de :: des, by simp only [dumpExprs, hde, hdes, ok_bind]; rfl⟩

theorem exists_dumpExpr (hp : L.Places procedures .dump) {e : Expr}
    (h : WellFormedExpr L.schema procedures L.locals .dump scope e) :
    ∃ de, L.dumpExpr e scope = .ok de := by
  induction h with
  | leaf hr hl =>
    obtain ⟨s, hs⟩ := exists_dumpSource hr
    cases hl with
    | scalar hb | dynamic hb =>
      exact ⟨_, by simp only [dumpExpr, hs, ok_bind, binding, hb.left, hb.right]; rfl⟩
    | dumpHook _ hb => exact ⟨_, by simp only [dumpExpr, hs, ok_bind, binding, hb]; rfl⟩
    | loadHook hd => cases hd
  | call hr hn =>
    obtain ⟨s, hs⟩ := exists_dumpSource hr
    obtain ⟨i, hi⟩ := hp.procedure_eq hn
    exact ⟨_, by simp only [dumpExpr, hi, hs, ok_bind]; rfl⟩
  | optional hr hb _ ih =>
    obtain ⟨s, hs⟩ := exists_dumpSource hr
    obtain ⟨de, hde⟩ := ih
    exact ⟨_, by simp only [dumpExpr, helper_option hb, hs, hde, ok_bind]; rfl⟩
  | boxed hr hb _ ih =>
    obtain ⟨s, hs⟩ := exists_dumpSource hr
    obtain ⟨de, hde⟩ := ih
    exact ⟨_, by simp only [dumpExpr, helper_box hb, hs, hde, ok_bind]; rfl⟩
  | list hr hb _ ih =>
    obtain ⟨s, hs⟩ := exists_dumpSource hr
    obtain ⟨de, hde⟩ := ih
    exact ⟨_, by simp only [dumpExpr, helper_item hb, hs, hde, ok_bind]; rfl⟩
  | map hr hb _ _ ihk ihe =>
    obtain ⟨s, hs⟩ := exists_dumpSource hr
    obtain ⟨dk, hdk⟩ := ihk
    obtain ⟨de, hde⟩ := ihe
    exact ⟨_, by simp only [dumpExpr, helper_entry hb, hs, hdk, hde, ok_bind]; rfl⟩
  | union hr hb hn _ ih =>
    obtain ⟨s, hs⟩ := exists_dumpSource hr
    obtain ⟨des, hdes⟩ := exists_dumpExprs ih
    exact ⟨_, by simp only [dumpExpr, unionHelper_eq hb hn, hs, hdes, ok_bind]; rfl⟩

theorem exists_insertions (hp : L.Places procedures .dump) {inserts : List Stmt}
    (h : Inserts L.schema procedures L.locals x inserts) :
    ∃ is, L.insertions x (inserts ++ [.returnOutput]) = .ok (is, []) := by
  induction h with
  | nil => exact ⟨[], rfl⟩
  | cons he _ ih =>
    have ⟨de, hde⟩ := exists_dumpExpr hp he
    have ⟨is, his⟩ := ih
    exact ⟨_, by simp only [List.cons_append, insertions, hde, his, ok_bind]; rfl⟩

theorem exists_pushes (hp : L.Places procedures .dump) {stmts : List Stmt}
    (h : Pushes L.schema procedures L.locals x stmts) :
    ∃ es, L.pushes x (stmts ++ [.returnOutput]) = .ok (es, []) := by
  induction h with
  | nil => exact ⟨[], rfl⟩
  | cons he _ ih =>
    have ⟨de, hde⟩ := exists_dumpExpr hp he
    have ⟨es, hes⟩ := ih
    exact ⟨_, by simp only [List.cons_append, pushes, hde, hes, ok_bind]; rfl⟩

theorem exists_dumpBody (hp : L.Places procedures .dump) {body : List Stmt}
    (h : WellFormed.DumpBody L.schema procedures L.locals x body) :
    ∃ b, L.dumpBody x body = .ok (b, []) := by
  cases h with
  | mapping hi =>
    obtain ⟨is, his⟩ := exists_insertions hp hi
    exact ⟨_, by simp only [List.cons_append, dumpBody, his, ok_bind]; rfl⟩
  | sequence hs =>
    obtain ⟨es, hes⟩ := exists_pushes hp hs
    exact ⟨_, by simp only [List.cons_append, dumpBody, hes, ok_bind]; rfl⟩
  | value he =>
    obtain ⟨de, hde⟩ := exists_dumpExpr hp he
    exact ⟨_, by simp only [dumpBody, hde, ok_bind]; rfl⟩

theorem exists_dumpProcedure (hp : L.Places procedures .dump) {p : Procedure}
    (hx : p.signature.valueParam? = some x)
    (h : WellFormed.DumpBody L.schema procedures L.locals x p.body) :
    ∃ q, L.dumpProcedure p = .ok q := by
  have ⟨b, hb⟩ := exists_dumpBody hp h
  exact ⟨_, by simp only [dumpProcedure, parameter, hx, hb, ok_bind, nothing]; rfl⟩

end Dump

end Linker

-- Where the names of procedures are distinct, each of them has a place of its direction.
theorem SlotTable.exists_get?_ofProcedures {ps : List Procedure}
    (hn : (ps.map Procedure.name).Nodup) {p : Procedure} (hp : p ∈ ps) (loads dumps : Nat) :
    ∃ i, Keyed.get? p.name (ofProcedures loads dumps ps) =
      some (p.signature.direction.slot i) := by
  induction ps generalizing loads dumps with
  | nil => nomatch hp
  | cons q ps ih =>
    simp only [List.map_cons, List.nodup_cons] at hn
    rcases List.mem_cons.mp hp with rfl | hp
    case inl =>
      cases hd : p.signature.direction with
      | load => exact ⟨loads, by simp only [ofProcedures, hd, Keyed.get?, if_true, Direction.slot]⟩
      | dump => exact ⟨dumps, by simp only [ofProcedures, hd, Keyed.get?, if_true, Direction.slot]⟩
    case inr =>
      have hne : q.name ≠ p.name := fun he => hn.left <| List.mem_map.mpr ⟨p, hp, he.symm⟩
      cases hd : q.signature.direction with
      | load =>
        obtain ⟨i, hi⟩ := ih hn.right hp (loads + 1) dumps
        exact ⟨i, by simp only [ofProcedures, hd, Keyed.get?, if_neg hne, hi]⟩
      | dump =>
        obtain ⟨i, hi⟩ := ih hn.right hp loads (dumps + 1)
        exact ⟨i, by simp only [ofProcedures, hd, Keyed.get?, if_neg hne, hi]⟩

theorem SlotTable.places (S : Schema) {ps : List Procedure} (hn : (ps.map Procedure.name).Nodup)
    (locals : Locals) (d : Direction) : Linker.Places ⟨S, ofProcedures 0 0 ps, locals⟩ ps d := by
  rintro _ ⟨p, hp, rfl, rfl⟩
  exact exists_get?_ofProcedures hn hp 0 0

namespace Builder

variable {b : Builder} {S : Schema}

theorem exists_linkAll {procedures ps : List Procedure} {slots : SlotTable}
    (hp : ∀ locals d, Linker.Places ⟨S, slots, locals⟩ procedures d)
    (h : ∀ p ∈ ps, WellFormedProcedure S procedures p) :
    ∃ linked, b.linkAll S slots ps = .ok linked := by
  induction ps with
  | nil => exact ⟨_, rfl⟩
  | cons p ps ih =>
    obtain ⟨⟨loads, dumps⟩, hl⟩ := ih fun p hp => h p (List.mem_cons_of_mem _ hp)
    obtain ⟨x, hx, hbody⟩ := h p (List.mem_cons_self ..)
    cases hd : p.signature.direction with
    | load =>
      rw [hd] at hbody
      obtain ⟨q, hq⟩ := Linker.exists_loadProcedure (hp p.locals .load) hx hbody
      refine ⟨(q :: loads, dumps), ?_⟩
      simp only [linkAll, hd, hq, hl, Except.mapError, Linker.ok_bind]
      rfl
    | dump =>
      rw [hd] at hbody
      obtain ⟨q, hq⟩ := Linker.exists_dumpProcedure (hp p.locals .dump) hx hbody
      refine ⟨(loads, q :: dumps), ?_⟩
      simp only [linkAll, hd, hq, hl, Except.mapError, Linker.ok_bind]
      rfl

-- Procedures of distinct names that are all sealed and all well-formed become one unit.
theorem exists_link (hb : b.pending = []) (hn : b.names.Nodup)
    (h : ∀ p ∈ b.sealed, WellFormedProcedure S b.sealed p) :
    ∃ U, b.link S = .ok U ∧ U.slots = SlotTable.ofProcedures 0 0 b.sealed := by
  have ⟨⟨loads, dumps⟩, hl⟩ := exists_linkAll (b := b) (SlotTable.places S hn) h
  refine ⟨⟨b.record, loads, dumps, _, b.listing⟩, ?_, rfl⟩
  simp only [link, hb, hl]
  rfl

end Builder
end TreeCodec
