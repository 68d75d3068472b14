import TreeCodec.Proofs.DumpMeaning
import TreeCodec.Proofs.LinkAccepts

/-!
Linking keeps what procedures mean.

A unit holds the procedures of each direction in the order of the builder, and a name stands for the
first procedure that has it. So a call by place runs what the call by name runs, however many calls
are nested.
-/
namespace TreeCodec

/-! ## Places -/

namespace Builder

def ofDirection (b : Builder) (d : Direction) : List Procedure :=
  b.sealed.filter fun p => p.signature.direction = d

end Builder

theorem Meaning.procedure?_cons_of_ne {p : Procedure} {ps : List Procedure} {d : Direction}
    {name : String} (h : p.name ≠ name) : procedure? (p :: ps) d name = procedure? ps d name := by
  simp [procedure?, h]

namespace SlotTable

-- The place of the next procedure of a direction, after some loading and some dumping ones.
def next (loads dumps : Nat) : Direction → Nat
  | .load => loads
  | .dump => dumps

theorem exists_procedure {d : Direction} {name : String} {i loads dumps : Nat}
    {ps : List Procedure} (h : Keyed.get? name (ofProcedures loads dumps ps) = some (d.slot i)) :
    ∃ p j, i = next loads dumps d + j ∧
      (ps.filter fun p => p.signature.direction = d)[j]? = some p ∧
      Meaning.procedure? ps d name = some p := by
  induction ps generalizing loads dumps with
  | nil => nomatch h
  | cons p ps ih =>
    unfold ofProcedures at h
    by_cases hn : p.name = name
    case pos =>
      -- The first procedure of the name is of the direction, as its slot tells.
      obtain ⟨hd, hi⟩ : p.signature.direction = d ∧ i = next loads dumps d := by
        cases hd : p.signature.direction <;> cases d <;>
          simp_all [Keyed.get?, Direction.slot, next]
      exact ⟨p, 0, hi, by simp [hd], by simp [Meaning.procedure?, hn, hd]⟩
    case neg =>
      rw [Meaning.procedure?_cons_of_ne hn]
      cases hd : p.signature.direction with
      | load =>
        simp only [hd, Keyed.get?, if_neg hn] at h
        obtain ⟨q, j, hi, hq, hp⟩ := ih h
        cases d with
        | load => exact ⟨q, j + 1, by simp only [next] at *; omega, by simp [hd, hq], hp⟩
        | dump => exact ⟨q, j, hi, by simp [hd, hq], hp⟩
      | dump =>
        simp only [hd, Keyed.get?, if_neg hn] at h
        obtain ⟨q, j, hi, hq, hp⟩ := ih h
        cases d with
        | load => exact ⟨q, j, hi, by simp [hd, hq], hp⟩
        | dump => exact ⟨q, j + 1, by simp only [next] at *; omega, by simp [hd, hq], hp⟩

theorem get?_of_load? {table : SlotTable} {name : String} {i : Nat}
    (h : table.load? name = some i) :
    Keyed.get? name table = some (.load i) := by
  unfold load? at h
  split at h
  case h_1 hs => exact Option.some.inj h ▸ hs
  case h_2 => nomatch h

theorem get?_of_dump? {table : SlotTable} {name : String} {i : Nat}
    (h : table.dump? name = some i) :
    Keyed.get? name table = some (.dump i) := by
  unfold dump? at h
  split at h
  case h_1 hs => exact Option.some.inj h ▸ hs
  case h_2 => nomatch h

end SlotTable

/-! ## Procedures -/

variable {L : Linker} {x : String} {stmts : List Stmt}

def LoadProcedure.InScope (q : LoadProcedure) : Prop :=
  (∀ a ∈ q.assignments, a.source.up < 1 ∧ a.value.InScope 1) ∧
    match q.result with
    | .construct _ => True
    | .value e => e.InScope 1

namespace DumpProcedure

def exprs (q : DumpProcedure) : List DumpExpr :=
  match q.body with
  | .mapping is => is.map Insertion.value
  | .sequence es => es
  | .value e => [e]

def callees (q : DumpProcedure) : List Nat :=
  q.exprs.flatMap DumpExpr.callees

def InScope (q : DumpProcedure) : Prop :=
  ∀ e ∈ q.exprs, e.InScope 1

end DumpProcedure

theorem AssignmentsLinked.inScope {n : Nat} {as : List Assignment}
    (h : AssignmentsLinked L x n stmts as) : ∀ a ∈ as, a.source.up < 1 ∧ a.value.InScope 1 := by
  induction h with
  | nil => nofun
  | cons hs he _ _ ih => exact List.forall_mem_cons.mpr ⟨⟨hs.up_lt, he.inScope⟩, ih⟩

theorem AssignmentsLinked.calls {n : Nat} {as : List Assignment}
    (h : AssignmentsLinked L x n stmts as) :
    L.Loads (stmts.flatMap fun s => s.exprs.flatMap Expr.calls)
      (as.flatMap fun a => a.value.callees) := by
  induction h with
  | nil => exact .nil
  | cons _ he _ _ ih => simpa [Stmt.exprs] using he.calls.append ih

theorem ChecksLinked.calls {checked : Option Expectation} {keys : Option (List String)}
    (h : ChecksLinked x stmts checked keys) :
    stmts.flatMap (fun s => s.exprs.flatMap Expr.calls) = [] := by
  cases h <;> rfl

namespace LoadBodyLinked

variable {q : LoadProcedure}

theorem inScope (h : LoadBodyLinked L x stmts q) : q.InScope := by
  cases h with
  | mk _ hassigns hlast =>
    refine ⟨hassigns.inScope, ?_⟩
    generalize q.assignments.length = n at hlast
    generalize q.result = r at hlast
    cases hlast with
    | record | tuple => trivial
    | value he => exact he.inScope

theorem calls {p : Procedure} (h : LoadBodyLinked L x p.body q) :
    L.Loads p.calls q.callees := by
  unfold Procedure.calls LoadProcedure.callees
  generalize p.body = stmts at h
  cases h with
  | mk hchecks hassigns hlast =>
    rw [List.flatMap_append, List.flatMap_append, hchecks.calls, List.nil_append]
    refine hassigns.calls.append ?_
    generalize q.assignments.length = n at hlast
    generalize q.result = r at hlast
    cases hlast with
    | record | tuple => exact .nil
    | value he => simpa [Stmt.exprs] using he.calls

end LoadBodyLinked

theorem InsertionsLinked.exprs {is : List Insertion} (h : InsertionsLinked L x stmts is) :
    (∀ e ∈ is.map Insertion.value, e.InScope 1) ∧
      L.Dumps (stmts.flatMap fun s => s.exprs.flatMap Expr.calls)
        ((is.map Insertion.value).flatMap DumpExpr.callees) := by
  induction h with
  | nil => exact ⟨nofun, .nil⟩
  | cons he _ ih =>
    refine ⟨List.forall_mem_cons.mpr ⟨he.inScope, ih.left⟩, ?_⟩
    simpa [Stmt.exprs] using he.calls.append ih.right

theorem PushesLinked.exprs {des : List DumpExpr} (h : PushesLinked L x stmts des) :
    (∀ e ∈ des, e.InScope 1) ∧
      L.Dumps (stmts.flatMap fun s => s.exprs.flatMap Expr.calls)
        (des.flatMap DumpExpr.callees) := by
  induction h with
  | nil => exact ⟨nofun, .nil⟩
  | cons he _ ih =>
    refine ⟨List.forall_mem_cons.mpr ⟨he.inScope, ih.left⟩, ?_⟩
    simpa [Stmt.exprs] using he.calls.append ih.right

theorem DumpBodyLinked.exprs {p : Procedure} {q : DumpProcedure}
    (h : DumpBodyLinked L x p.body q.body) : q.InScope ∧ L.Dumps p.calls q.callees := by
  unfold DumpProcedure.InScope DumpProcedure.callees DumpProcedure.exprs Procedure.calls
  generalize p.body = stmts at h
  generalize q.body = body at h
  cases h with
  | mapping h => simpa [Stmt.exprs] using h.exprs
  | sequence h => simpa [Stmt.exprs] using h.exprs
  | value he => simpa [Stmt.exprs] using ⟨he.inScope, he.calls⟩

/-! ## Units -/

theorem Linker.eq_ok_of_mapError {ε ε' α : Type} {x : Except ε α} {f : ε → ε'} {a : α}
    (h : x.mapError f = .ok a) : x = .ok a := by
  cases x with
  | error => nomatch h
  | ok => exact congrArg _ <| Except.ok.inj h

-- The procedures of a unit are those of a builder, linked one by one.
structure Builder.Linked (b : Builder) (S : Schema) (U : CompiledUnit) : Prop where
  slots : U.slots = SlotTable.ofProcedures 0 0 b.sealed
  loads : List.Forall₂ (fun p q => Linker.loadProcedure ⟨S, U.slots, p.locals⟩ p = .ok q)
    (b.ofDirection .load) U.loads
  dumps : List.Forall₂ (fun p q => Linker.dumpProcedure ⟨S, U.slots, p.locals⟩ p = .ok q)
    (b.ofDirection .dump) U.dumps

namespace Builder

variable {b : Builder} {S : Schema} {U : CompiledUnit}

theorem linkAll_linked {slots : SlotTable} {ps : List Procedure} {loads : List LoadProcedure}
    {dumps : List DumpProcedure} (h : b.linkAll S slots ps = .ok (loads, dumps)) :
    List.Forall₂ (fun p q => Linker.loadProcedure ⟨S, slots, p.locals⟩ p = .ok q)
        (ps.filter fun p => p.signature.direction = .load) loads ∧
      List.Forall₂ (fun p q => Linker.dumpProcedure ⟨S, slots, p.locals⟩ p = .ok q)
        (ps.filter fun p => p.signature.direction = .dump) dumps := by
  induction ps generalizing loads dumps with
  | nil =>
    cases h
    exact ⟨.nil, .nil⟩
  | cons p ps ih =>
    cases hd : p.signature.direction with
    | load =>
      simp only [linkAll, hd] at h
      obtain ⟨q, hq, h⟩ := Linker.exists_of_bind_eq_ok h
      obtain ⟨⟨loads', dumps'⟩, hl, h⟩ := Linker.exists_of_bind_eq_ok h
      cases h
      obtain ⟨ihl, ihd⟩ := ih hl
      simpa [hd] using ⟨⟨Linker.eq_ok_of_mapError hq, ihl⟩, ihd⟩
    | dump =>
      simp only [linkAll, hd] at h
      obtain ⟨q, hq, h⟩ := Linker.exists_of_bind_eq_ok h
      obtain ⟨⟨loads', dumps'⟩, hl, h⟩ := Linker.exists_of_bind_eq_ok h
      cases h
      obtain ⟨ihl, ihd⟩ := ih hl
      simpa [hd] using ⟨ihl, Linker.eq_ok_of_mapError hq, ihd⟩

theorem linked_of_link (h : b.link S = .ok U) : b.Linked S U := by
  unfold link at h
  split at h
  case h_1 =>
    have ⟨_, ht, _⟩ := Linker.exists_of_bind_eq_ok h
    nomatch ht
  case h_2 =>
    have ⟨⟨loads, dumps⟩, hl, h⟩ := Linker.exists_of_bind_eq_ok h
    cases h
    have ⟨hloads, hdumps⟩ := linkAll_linked hl
    exact ⟨rfl, hloads, hdumps⟩

namespace Linked

variable {p : Procedure} {name : String} {i : Nat} (h : b.Linked S U)
include h

theorem procedure_of_slot {d : Direction} (hi : Keyed.get? name U.slots = some (d.slot i)) :
    ∃ p, (b.ofDirection d)[i]? = some p ∧ Meaning.procedure? b.sealed d name = some p := by
  rw [h.slots] at hi
  have ⟨p, j, hj, hp, hname⟩ := SlotTable.exists_procedure hi
  have hij : i = j := by cases d <;> simpa [SlotTable.next] using hj
  exact ⟨p, hij ▸ hp, hname⟩

theorem load_of_getElem? (hp : (b.ofDirection .load)[i]? = some p) :
    ∃ q, U.loads[i]? = some q ∧ Linker.loadProcedure ⟨S, U.slots, p.locals⟩ p = .ok q :=
  exists_getElem?_of_forall₂ h.loads hp

theorem dump_of_getElem? (hp : (b.ofDirection .dump)[i]? = some p) :
    ∃ q, U.dumps[i]? = some q ∧ Linker.dumpProcedure ⟨S, U.slots, p.locals⟩ p = .ok q :=
  exists_getElem?_of_forall₂ h.dumps hp

-- The calls that are left go down on both sides, one with each procedure that is entered.
theorem callLoad_eq (n : Nat) {locals : Locals} :
    Linker.LoadsAlike ⟨S, U.slots, locals⟩ (U.callLoad S n) (Meaning.callLoad S b.sealed n) := by
  induction n generalizing locals with
  | zero => exact fun _ _ _ => rfl
  | succ n ih =>
    intro name i hi
    funext input
    have ⟨p, hp, hname⟩ := h.procedure_of_slot (d := .load) hi
    have ⟨q, hq, hlink⟩ := h.load_of_getElem? hp
    have ⟨hqn, x, hx, hbody⟩ := Linker.loadProcedure_linked hlink
    simp only [CompiledUnit.callLoad, Meaning.callLoad, hq, hname]
    exact hbody.run_eq ih rfl hqn hx none

theorem callDump_eq (n : Nat) {locals : Locals} :
    Linker.DumpsAlike ⟨S, U.slots, locals⟩ (U.callDump S n) (Meaning.callDump S b.sealed n) := by
  induction n generalizing locals with
  | zero => exact fun _ _ _ => rfl
  | succ n ih =>
    intro name i hi
    funext v
    have ⟨p, hp, hname⟩ := h.procedure_of_slot (d := .dump) hi
    have ⟨q, hq, hlink⟩ := h.dump_of_getElem? hp
    have ⟨hqn, x, hx, hbody⟩ := Linker.dumpProcedure_linked hlink
    simp only [CompiledUnit.callDump, Meaning.callDump, hq, hname]
    exact hbody.run_eq ih rfl hqn hx

end Linked
end Builder

-- The procedures of a unit call procedures of the unit, and names stand for procedures of it.
theorem Builder.link_closed {b : Builder} {S : Schema} {U : CompiledUnit} (h : b.link S = .ok U) :
    (∀ q ∈ U.loads, ∀ i ∈ q.callees, i < U.loads.length) ∧
      ∀ name i, U.slots.load? name = some i → i < U.loads.length := by
  have hl := linked_of_link h
  have hslot : ∀ name i, Keyed.get? name U.slots = some (.load i) → i < U.loads.length := by
    intro name i hi
    have ⟨p, hp, _⟩ := hl.procedure_of_slot (d := .load) hi
    have ⟨q, hq, _⟩ := hl.load_of_getElem? hp
    exact (List.getElem?_eq_some_iff.mp hq).choose
  constructor
  case left =>
    intro q hq i hi
    have ⟨p, _, hlink⟩ := exists_of_forall₂ hl.loads.flip q hq
    have ⟨_, _, _, hbody⟩ := Linker.loadProcedure_linked hlink
    have ⟨name, _, hname⟩ := exists_of_forall₂ hbody.calls.flip i hi
    exact hslot name i hname
  case right => exact fun name i hi => hslot name i <| SlotTable.get?_of_load? hi

-- What the linked load procedure at a place has to do with a procedure. It looks up no ancestor
-- that is not there, what it calls has the name and the direction of the call, and a run that ends
-- gives what the statements mean.
structure LoadsAs (b : Builder) (S : Schema) (U : CompiledUnit) (i : Nat) (p : Procedure) :
    Prop where
  linked : ∃ q, U.loads[i]? = some q ∧ q.name = p.name ∧ q.InScope ∧
    List.Forall₂ (fun name j => j < U.loads.length ∧
      Meaning.procedure? b.sealed .load name = (b.ofDirection .load)[j]?) p.calls q.callees
  run : ∀ input default r, r.Finished → (U.load S i input default = r ↔
    ∃ n, Meaning.runLoad S (Meaning.callLoad S b.sealed n) p input default = r)

structure DumpsAs (b : Builder) (S : Schema) (U : CompiledUnit) (i : Nat) (p : Procedure) :
    Prop where
  linked : ∃ q, U.dumps[i]? = some q ∧ q.name = p.name ∧ q.InScope ∧
    List.Forall₂ (fun name j => j < U.dumps.length ∧
      Meaning.procedure? b.sealed .dump name = (b.ofDirection .dump)[j]?) p.calls q.callees
  run : ∀ v r, r.Finished → (U.dump S i v = r ↔
    ∃ n, Meaning.runDump S (Meaning.callDump S b.sealed n) p v = r)

-- A default only matters where the tree is absent, and then no call is made.
theorem CompiledUnit.run_upto_load (U : CompiledUnit) (S : Schema) {i : Nat} {q : LoadProcedure}
    (hq : U.loads[i]? = some q) (n : Nat) (input : Option Tree) (default : Option Value) :
    (q.run S (U.callLoad S n) input default).Upto (U.load S i input default) := by
  have hnone : (q.run S (U.callLoad S n) input none).Upto (U.load S i input none) := by
    have hcall := U.callLoad_upto_load S (n + 1) i input
    simpa only [CompiledUnit.callLoad, hq] using hcall
  cases default with
  | none => exact hnone
  | some v =>
    simp only [CompiledUnit.load, hq] at hnone ⊢
    cases input with
    | none => exact .refl _
    | some t => exact hnone

namespace Builder.Linked

variable {b : Builder} {S : Schema} {U : CompiledUnit} {p : Procedure} {i : Nat}
  (h : b.Linked S U)
include h

theorem loadsAs (hp : (b.ofDirection .load)[i]? = some p) : LoadsAs b S U i p := by
  obtain ⟨q, hq, hlink⟩ := h.load_of_getElem? hp
  obtain ⟨hname, x, hx, hbody⟩ := Linker.loadProcedure_linked hlink
  have hrun (n : Nat) (input : Option Tree) (default : Option Value) :
      q.run S (U.callLoad S n) input default =
        Meaning.runLoad S (Meaning.callLoad S b.sealed n) p input default :=
    hbody.run_eq (h.callLoad_eq n) rfl hname hx default
  refine ⟨⟨q, hq, hname, hbody.inScope, hbody.calls.imp fun name j hj => ?_⟩, ?_⟩
  · obtain ⟨p', hp', hname'⟩ := h.procedure_of_slot (d := .load) hj
    obtain ⟨q', hq', _⟩ := h.load_of_getElem? hp'
    exact ⟨(List.getElem?_eq_some_iff.mp hq').choose, hname'.trans hp'.symm⟩
  · intro input default r hr
    constructor
    case mp =>
      intro hu
      refine ⟨U.loadBudget input, ?_⟩
      rw [← hrun, ← hu]
      simp only [CompiledUnit.load, hq]
    case mpr =>
      rintro ⟨n, hn⟩
      rw [← hrun] at hn
      subst hn
      exact ((U.run_upto_load S hq n input default).eq hr).symm

theorem dumpsAs (hp : (b.ofDirection .dump)[i]? = some p) : DumpsAs b S U i p := by
  obtain ⟨q, hq, hlink⟩ := h.dump_of_getElem? hp
  obtain ⟨hname, x, hx, hbody⟩ := Linker.dumpProcedure_linked hlink
  have hrun (n : Nat) (v : Value) :
      q.run S (U.callDump S n) v = Meaning.runDump S (Meaning.callDump S b.sealed n) p v :=
    hbody.run_eq (h.callDump_eq n) rfl hname hx
  refine ⟨⟨q, hq, hname, hbody.exprs.left, hbody.exprs.right.imp fun name j hj => ?_⟩, ?_⟩
  · obtain ⟨p', hp', hname'⟩ := h.procedure_of_slot (d := .dump) hj
    obtain ⟨q', hq', _⟩ := h.dump_of_getElem? hp'
    exact ⟨(List.getElem?_eq_some_iff.mp hq').choose, hname'.trans hp'.symm⟩
  · intro v r hr
    constructor
    case mp =>
      intro hu
      refine ⟨U.dumpBudget v, ?_⟩
      rw [← hrun, ← hu]
      simp only [CompiledUnit.dump, hq]
    case mpr =>
      rintro ⟨n, hn⟩
      rw [← hrun] at hn
      subst hn
      have hcall := U.callDump_upto_dump S (n + 1) i v
      simp only [CompiledUnit.callDump, hq] at hcall
      exact (hcall.eq hr).symm

end Builder.Linked

-- Linked procedures stand, in their order, for the procedures of their direction, and what a name
-- stands for is the procedure that has it.
structure KeepsMeaning (b : Builder) (S : Schema) (U : CompiledUnit) : Prop where
  loads : U.loads.length = (b.ofDirection .load).length ∧
    ∀ i p, (b.ofDirection .load)[i]? = some p → LoadsAs b S U i p
  dumps : U.dumps.length = (b.ofDirection .dump).length ∧
    ∀ i p, (b.ofDirection .dump)[i]? = some p → DumpsAs b S U i p
  loader : ∀ name i, U.loader? name = some i → ∃ p, (b.ofDirection .load)[i]? = some p ∧
    Meaning.procedure? b.sealed .load name = some p
  dumper : ∀ name i, U.dumper? name = some i → ∃ p, (b.ofDirection .dump)[i]? = some p ∧
    Meaning.procedure? b.sealed .dump name = some p

theorem link_preserves_meaning {b : Builder} {S : Schema} {U : CompiledUnit}
    (h : b.link S = .ok U) : KeepsMeaning b S U := by
  have hl := Builder.linked_of_link h
  constructor
  case loads => exact ⟨hl.loads.length_eq.symm, fun _ _ => hl.loadsAs⟩
  case dumps => exact ⟨hl.dumps.length_eq.symm, fun _ _ => hl.dumpsAs⟩
  case loader => exact fun _ _ hi => hl.procedure_of_slot <| SlotTable.get?_of_load? hi
  case dumper => exact fun _ _ hi => hl.procedure_of_slot <| SlotTable.get?_of_dump? hi

-- Rows of cells, with one name for the row and for the cell in it.
def rows : Builder where
  record := "Rows"
  sealed := [
    { name := "dump_Cell", signature := .dump
      locals := [("cell", .type cell), ("number", .type number)]
      body := [.returnValue (.optional "cell" (.var "o") "o" (.leaf "number" (.var "o")))] },
    { name := "load_Cell", signature := .load
      locals := [("cell", .type cell), ("number", .type number)]
      body := [.returnValue (.optional "cell" (.var "v1") "v1" (.leaf "number" (.var "v1")))] },
    { name := "load_Rows", signature := .load
      locals := [("row", .type row), ("rows", .type table)]
      body := [.returnValue (.list "rows" (.var "v1") "x"
        (.list "row" (.var "x") "x" (.call "load_Cell" (.var "x"))))] },
    { name := "dump_Rows", signature := .dump
      locals := [("row", .type row), ("rows", .type table)]
      body := [.returnValue (.list "rows" (.var "o") "x"
        (.list "row" (.var "x") "x" (.call "dump_Cell" (.var "x"))))] }]
where
  number : Ty := .scalar (.int .i32)
  cell : Ty := .optional number
  row : Ty := .list .vector cell
  table : Ty := .list .vector row

theorem link_preserves_meaning_rows :
    ∃ U, rows.link { declarations := [] } = .ok U ∧ U.loader? "load_Rows" = some 1 ∧
      KeepsMeaning rows { declarations := [] } U := by
  have h : ((rows.link { declarations := [] }).map (·.loader? "load_Rows")).toOption =
      some (some 1) := by
    decide +kernel
  cases hU : rows.link { declarations := [] } with
  | error e => simp [hU, Except.map, Except.toOption] at h
  | ok U =>
    rw [hU] at h
    exact ⟨U, rfl, Option.some.inj h, link_preserves_meaning hU⟩

end TreeCodec
