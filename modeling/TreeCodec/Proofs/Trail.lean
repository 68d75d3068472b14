import Mathlib.Data.List.Chain
import TreeCodec.Proofs.DumpErrorPath
import TreeCodec.Proofs.TargetSlot
import TreeCodec.Proofs.Unwinding

/-!
The trail of an error is a chain of calls, from the procedure where it arose to the entry.

A procedure adds its name to the errors that leave it. One that is called on an absent tree may
refuse it before it is entered, so an error may leave a call without a name.
-/
namespace TreeCodec

/-! ## Chains -/

namespace Builder

variable (b : Builder) (d : Direction)

-- The procedure of one name calls that of another one, and passes its errors on.
def PassesOn (callee caller : String) : Prop :=
  ∃ p, Meaning.procedure? b.sealed d caller = some p ∧ callee ∈ p.passes d

-- Procedures of one direction, each of which is called by the next one, up to the entry.
structure CallChain (entry : String) (trail : List String) : Prop where
  ne_nil : trail ≠ []
  named  : ∀ name ∈ trail, name ∈ (b.ofDirection d).map Procedure.name
  called : trail.IsChain (b.PassesOn d)
  last   : trail.getLast? = some entry

-- What is left of a call by an error. It has no trail if the procedure was not entered.
def Leaves (name : String) (e : ConversionError) : Prop :=
  e.trail = [] ∨ b.CallChain d name e.trail

variable {b d}

theorem mem_names_of_procedure? {name : String} {p : Procedure}
    (hp : Meaning.procedure? b.sealed d name = some p) :
    name ∈ (b.ofDirection d).map Procedure.name := by
  have ⟨hmem, hname, hd⟩ := Meaning.of_procedure? hp
  exact List.mem_map.mpr ⟨p, List.mem_filter.mpr ⟨hmem, by simpa using hd⟩, hname⟩

namespace CallChain

variable {caller : String} {p : Procedure}

theorem single (hp : Meaning.procedure? b.sealed d caller = some p) :
    b.CallChain d caller [caller] where
  ne_nil := List.cons_ne_nil _ _
  named  := List.forall_mem_singleton.mpr <| mem_names_of_procedure? hp
  called := List.isChain_singleton caller
  last   := rfl

theorem snoc {callee : String} {trail : List String} (h : b.CallChain d callee trail)
    (hp : Meaning.procedure? b.sealed d caller = some p) (hc : callee ∈ p.passes d) :
    b.CallChain d caller (trail ++ [caller]) where
  ne_nil := List.append_ne_nil_of_right_ne_nil _ <| List.cons_ne_nil _ _
  named  := List.forall_mem_append.mpr ⟨h.named, (single hp).named⟩
  called := by
    refine List.isChain_append.mpr ⟨h.called, List.isChain_singleton caller, ?_⟩
    intro x hx y hy
    cases Option.mem_def.mp hx ▸ h.last
    cases Option.mem_def.mp hy
    exact ⟨p, hp, hc⟩
  last   := List.getLast?_concat

end CallChain

end Builder

/-! ## Calls -/

namespace Builder

variable (b : Builder) (d : Direction)

-- An error in the body of a procedure arose there, or it left a call that the body makes.
def ArisesIn (p : Procedure) (e : ConversionError) : Prop :=
  e.trail = [] ∨ ∃ name ∈ p.passes d, b.CallChain d name e.trail

variable {b d} {p : Procedure}

theorem ofTrail_arisesIn : OfTrail (b.ArisesIn d p) where
  fault  := fun _ => .inl rfl
  within := fun _ _ h => h

theorem Leaves.arisesIn {name : String} {e : ConversionError} (h : b.Leaves d name e)
    (hc : name ∈ p.passes d) : b.ArisesIn d p e :=
  h.imp_right fun h => ⟨name, hc, h⟩

theorem ArisesIn.through {e : ConversionError} (h : b.ArisesIn d p e)
    (hp : Meaning.procedure? b.sealed d p.name = some p) :
    b.CallChain d p.name (e.through p.name).trail := by
  rcases h with hnil | ⟨name, hc, h⟩
  · simpa only [ConversionError.through, hnil] using .single hp
  · exact h.snoc hp hc

section Loading

variable {S : Schema} {callee : String → Load.Rule}
  (hcall : ∀ name, (callee name).FailsWith (b.Leaves .load name))
  (hp : Meaning.procedure? b.sealed .load p.name = some p)
include hcall hp

theorem loadBody_through (x : String) (input : Option Tree) :
    ((Meaning.loadBody S p.locals callee [(x, input)] [] p.body).through p.name).FailsWith
      fun e => b.CallChain .load p.name e.trail :=
  .through <| .imp
    (Meaning.loadBody_failsWith ofTrail_arisesIn _ _ _ fun name hc x =>
      (hcall name x).imp fun _ h => h.arisesIn hc)
    fun _ h => h.through hp

-- A tree that is present enters the procedure.
theorem callChain_of_present (t : Tree) (default : Option Value) :
    (Meaning.runLoad S callee p (some t) default).FailsWith
      fun e => b.CallChain .load p.name e.trail := by
  unfold Meaning.runLoad
  split
  · exact .unfinished
  · simpa using loadBody_through hcall hp _ (some t)

-- One that is absent may be refused before.
theorem leaves_runLoad :
    Load.Rule.FailsWith (b.Leaves .load p.name) fun x => Meaning.runLoad S callee p x none := by
  intro x
  cases x with
  | some t => exact (callChain_of_present hcall hp t none).imp fun _ => .inr
  | none =>
    simp only [Meaning.runLoad]
    split
    · exact .unfinished
    · split
      · exact .fault <| .inl rfl
      · exact (loadBody_through hcall hp _ none).imp fun _ => .inr

end Loading

theorem callChain_runDump {S : Schema} {callee : String → Dump.Rule}
    (hcall : ∀ name, (callee name).FailsWith (b.Leaves .dump name))
    (hp : Meaning.procedure? b.sealed .dump p.name = some p) (v : Value) :
    (Meaning.runDump S callee p v).FailsWith fun e => b.CallChain .dump p.name e.trail := by
  unfold Meaning.runDump
  split
  · exact .unfinished
  · exact .through <| .imp
      (Meaning.dumpBody_failsWith ofTrail_arisesIn _ _ _ fun name hc v =>
        (hcall name v).imp fun _ h => h.arisesIn hc)
      fun _ h => h.through hp

-- However many calls are nested.
theorem leaves_callLoad (S : Schema) (n : Nat) (name : String) :
    (Meaning.callLoad S b.sealed n name).FailsWith (b.Leaves .load name) := by
  induction n generalizing name with
  | zero => exact fun _ => .unfinished
  | succ n ih =>
    intro x
    unfold Meaning.callLoad
    split
    case h_1 p hp =>
      obtain ⟨_, rfl, _⟩ := Meaning.of_procedure? hp
      exact leaves_runLoad ih hp x
    case h_2 => exact .unfinished

theorem leaves_callDump (S : Schema) (n : Nat) (name : String) :
    (Meaning.callDump S b.sealed n name).FailsWith (b.Leaves .dump name) := by
  induction n generalizing name with
  | zero => exact fun _ => .unfinished
  | succ n ih =>
    intro v
    unfold Meaning.callDump
    split
    case h_1 p hp =>
      obtain ⟨_, rfl, _⟩ := Meaning.of_procedure? hp
      exact (callChain_runDump ih hp v).imp fun _ => .inr
    case h_2 => exact .unfinished

end Builder

/-! ## Units -/

-- The names of the procedures of a direction.
def CompiledUnit.namesOf (U : CompiledUnit) : Direction → List String
  | .load => U.loads.map LoadProcedure.name
  | .dump => U.dumps.map DumpProcedure.name

variable {b : Builder} {S : Schema} {U : CompiledUnit}

theorem Builder.Linked.namesOf_eq (h : b.Linked S U) (d : Direction) :
    U.namesOf d = (b.ofDirection d).map Procedure.name := by
  suffices ((b.ofDirection d).map Procedure.name).Forall₂ Eq (U.namesOf d) from
    (List.forall₂_eq_eq_eq ▸ this).symm
  cases d with
  | load =>
    refine List.forall₂_map_left_iff.mpr <| List.forall₂_map_right_iff.mpr ?_
    exact h.loads.imp fun _ _ hq => (Linker.loadProcedure_linked hq).left.symm
  | dump =>
    refine List.forall₂_map_left_iff.mpr <| List.forall₂_map_right_iff.mpr ?_
    exact h.dumps.imp fun _ _ hq => (Linker.dumpProcedure_linked hq).left.symm

namespace Builder.Linked

variable (h : b.Linked S U) {name : String} {i : Nat} {e : ConversionError}
include h

theorem callChain_of_load (hi : U.loader? name = some i) {t : Tree}
    (he : (U.load S i (some t) none).outcome = .failed e) : b.CallChain .load name e.trail := by
  have ⟨p, hp, hname⟩ := h.procedure_of_slot (d := .load) <| SlotTable.get?_of_load? hi
  obtain ⟨_, rfl, _⟩ := Meaning.of_procedure? hname
  -- The run is what the statements mean if enough calls may be nested.
  have ⟨n, hn⟩ := ((h.loadsAs hp).run _ _ _ (Run.finished_of_failed he)).mp rfl
  exact callChain_of_present (leaves_callLoad S n) hname t none e <| hn ▸ he

theorem callChain_of_dump (hi : U.dumper? name = some i) {v : Value}
    (he : (U.dump S i v).outcome = .failed e) : b.CallChain .dump name e.trail := by
  have ⟨p, hp, hname⟩ := h.procedure_of_slot (d := .dump) <| SlotTable.get?_of_dump? hi
  obtain ⟨_, rfl, _⟩ := Meaning.of_procedure? hname
  have ⟨n, hn⟩ := ((h.dumpsAs hp).run _ _ (Run.finished_of_failed he)).mp rfl
  exact callChain_runDump (leaves_callDump S n) hname v e <| hn ▸ he

end Builder.Linked

theorem Loader.of_ofUnit {entry : String} {root : Ty} {l : Loader}
    (h : ofUnit U entry root = .ok l) :
    ∃ i, U.loader? entry = some i ∧ l = ⟨U, i, entry, root⟩ := by
  unfold ofUnit at h
  split at h
  case h_1 i hi => exact ⟨i, hi, (Except.ok.inj h).symm⟩
  case h_2 => nomatch h

theorem Dumper.of_ofUnit {entry : String} {root : Ty} {d : Dumper}
    (h : ofUnit U entry root = .ok d) :
    ∃ i, U.dumper? entry = some i ∧ d = ⟨U, i, entry, root⟩ := by
  unfold ofUnit at h
  split at h
  case h_1 i hi => exact ⟨i, hi, (Except.ok.inj h).symm⟩
  case h_2 => nomatch h

-- A property that does not look at what alternatives were rejected for.
theorem ofTrail_nil : OfTrail fun e => e.trail = [] where
  fault  := fun _ => rfl
  within := fun _ _ h => h

-- A present tree that does not load, and a value of the type of a dumper that is not dumped, leave
-- the calls that led to where it failed. An error that leaves a union has no trail yet, whatever
-- the alternatives were rejected for.
theorem trail_is_call_chain (h : b.link S = .ok U) (entry : String) (root : Ty) :
    (∀ l, Loader.ofUnit U entry root = .ok l → ∀ t e, (l.load S t).outcome = .failed e →
      b.CallChain .load entry e.trail ∧ ∀ name ∈ e.trail, name ∈ U.namesOf .load) ∧
    (∀ d, Dumper.ofUnit U entry root = .ok d → ∀ v e, v.ty = root →
      (d.dump S v).outcome = .failed e →
        b.CallChain .dump entry e.trail ∧ ∀ name ∈ e.trail, name ∈ U.namesOf .dump) ∧
    (∀ t variants rules x e,
      (Load.union S t variants rules x).outcome = .failed e → e.trail = []) := by
  have hU := Builder.linked_of_link h
  refine ⟨?load, ?dump, fun _ variants rules => Load.union_failsWith ofTrail_nil variants rules⟩
  case load =>
    intro l hl t e he
    obtain ⟨i, hi, rfl⟩ := Loader.of_ofUnit hl
    have hchain := hU.callChain_of_load hi he
    exact ⟨hchain, hU.namesOf_eq .load ▸ hchain.named⟩
  case dump =>
    intro d hd v e hv he
    obtain ⟨i, hi, rfl⟩ := Dumper.of_ofUnit hd
    simp only [Dumper.dump, if_pos hv] at he
    have hchain := hU.callChain_of_dump hi he
    exact ⟨hchain, hU.namesOf_eq .dump ▸ hchain.named⟩

-- Counts and flags, which nothing lets out again.
def marks : Builder where
  record := "Marks"
  sealed := [
    { name := "load_Count", signature := .load
      locals := [("count", .type count)]
      body := [.returnValue (.leaf "count" (.var "v1"))] },
    { name := "load_Mark", signature := .load
      locals := [("mark", .type mark), ("flag", .type flag)]
      body := [.returnValue (.union "mark" (.var "v1") "x"
        [.call "load_Count" (.var "x"), .leaf "flag" (.var "x")])] },
    { name := "load_Marks", signature := .load
      locals := [("marks", .type (.list .vector mark))]
      body := [.returnValue (.list "marks" (.var "v1") "x" (.call "load_Mark" (.var "x")))] },
    { name := "dump_Mark", signature := .dump
      locals := [("refuse", .dumpHook fun _ => .error "no")]
      body := [.returnValue (.leaf "refuse" (.var "o"))] },
    { name := "dump_Marks", signature := .dump
      locals := [("marks", .type (.list .vector mark))]
      body := [.returnValue (.list "marks" (.var "o") "x" (.call "dump_Mark" (.var "x")))] }]
where
  count : Ty := .scalar (.int .i32)
  flag : Ty := .scalar .bool
  mark : Ty := .declared "Mark"

def marks.schema : Schema where
  declarations := [
    ("Mark", {
      names := .qualified "app" "Mark"
      definition := .union [
        { name := "Count", ty := marks.count }, { name := "Flag", ty := marks.flag }] })]

def Outcome.trail? {α : Type} : Outcome α → Option (List String)
  | failed e => some e.trail
  | _ => none

theorem Outcome.exists_failed_of_trail? {α : Type} {o : Outcome α} {trail : List String}
    (h : o.trail? = some trail) : ∃ e, o = failed e ∧ e.trail = trail := by
  cases o with
  | failed e => exact ⟨e, rfl, Option.some.inj h⟩
  | done | unfinished => nomatch h

-- A text is no mark. That it was tried as a count leaves no trace.
theorem trail_is_call_chain_marks :
    ∃ U l d e e', marks.link marks.schema = .ok U ∧
      Loader.ofUnit U "load_Marks" (.list .vector marks.mark) = .ok l ∧
      Dumper.ofUnit U "dump_Marks" (.list .vector marks.mark) = .ok d ∧
      (l.load marks.schema (.array [.text "a"])).outcome = .failed e ∧
      e.trail = ["load_Mark", "load_Marks"] ∧ marks.CallChain .load "load_Marks" e.trail ∧
      (d.dump marks.schema (.list .vector marks.mark [.union "Mark" 1 (.bool true)])).outcome =
        .failed e' ∧
      e'.trail = ["dump_Mark", "dump_Marks"] ∧ marks.CallChain .dump "dump_Marks" e'.trail := by
  have hruns : ((marks.link marks.schema).toOption.bind fun U => do
      let l ← (Loader.ofUnit U "load_Marks" (.list .vector marks.mark)).toOption
      let d ← (Dumper.ofUnit U "dump_Marks" (.list .vector marks.mark)).toOption
      let loaded := l.load marks.schema (.array [.text "a"])
      let dumped := d.dump marks.schema (.list .vector marks.mark [.union "Mark" 1 (.bool true)])
      return (loaded.outcome.trail?, dumped.outcome.trail?)) =
      some (some ["load_Mark", "load_Marks"], some ["dump_Mark", "dump_Marks"]) := by
    decide +kernel
  cases hU : marks.link marks.schema with
  | error => simp [hU, Except.toOption] at hruns
  | ok U =>
    cases hl : Loader.ofUnit U "load_Marks" (.list .vector marks.mark) with
    | error => simp [hU, hl, Except.toOption] at hruns
    | ok l =>
      cases hd : Dumper.ofUnit U "dump_Marks" (.list .vector marks.mark) with
      | error => simp [hU, hl, hd, Except.toOption] at hruns
      | ok d =>
        simp only [hU, hl, hd, Except.toOption, Option.bind_some, Option.bind_eq_bind,
          Option.pure_def, Option.some.injEq, Prod.mk.injEq] at hruns
        obtain ⟨e, he, htrail⟩ := Outcome.exists_failed_of_trail? hruns.left
        obtain ⟨e', he', htrail'⟩ := Outcome.exists_failed_of_trail? hruns.right
        have hchain := (trail_is_call_chain hU "load_Marks" _).left l hl _ e he
        have hchain' := (trail_is_call_chain hU "dump_Marks" _).right.left d hd _ e' rfl he'
        exact ⟨U, l, d, e, e', rfl, hl, hd, he, htrail, hchain.left, he', htrail', hchain'.left⟩

end TreeCodec
