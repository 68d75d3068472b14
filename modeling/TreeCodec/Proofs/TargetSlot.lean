import TreeCodec.Proofs.CompileFailure
import TreeCodec.Proofs.ClosedUnit
import TreeCodec.Proofs.DumpUnit
import TreeCodec.Proofs.LinkMeaning

/-!
Where the procedures of targets are in a compiled unit.
-/
namespace TreeCodec

theorem Meaning.of_procedure? {ps : List Procedure} {d : Direction} {name : String} {p : Procedure}
    (h : procedure? ps d name = some p) : p ∈ ps ∧ p.name = name ∧ p.signature.direction = d := by
  have := List.find?_some h
  simp only [decide_eq_true_eq] at this
  exact ⟨List.mem_of_find?_eq_some h, this⟩

-- The name of a target is that of its procedure, and of no other one.
theorem Compilation.exists_procedure? {s : Settings} {root : Ty} {source : Source}
    {name? : GuardKey → Option String} (hc : Compilation s root source name?) {key : GuardKey}
    {name : String} (hk : name? key = some name) :
    ∃ p, Meaning.procedure? source.builder.sealed s.direction name = some p ∧
      ProcedureFor s name? key p := by
  have ⟨p, hp, hname, hfor⟩ := hc.covered key name hk
  have hd : p.signature.direction = s.direction := by
    rw [hfor.signature]
    cases s.direction <;> rfl
  cases hfind : Meaning.procedure? source.builder.sealed s.direction name with
  | none =>
    have hnot := List.find?_eq_none.mp hfind p hp
    simp [hname, hd] at hnot
  | some q =>
    have ⟨hq, hqn, _⟩ := Meaning.of_procedure? hfind
    cases List.inj_on_of_nodup_map hc.distinct hp hq (hname.trans hqn.symm)
    exact ⟨p, rfl, hfor⟩

-- The name of a target stands for the place of its procedure.
theorem Compilation.exists_place {s : Settings} {root : Ty} {source : Source}
    {name? : GuardKey → Option String} {U : CompiledUnit} (hc : Compilation s root source name?)
    (hU : source.builder.Linked s.schema U) {key : GuardKey} {name : String}
    (hk : name? key = some name) :
    ∃ i p, Keyed.get? name U.slots = some (s.direction.slot i) ∧
      (source.builder.ofDirection s.direction)[i]? = some p ∧ p.name = name ∧
      ProcedureFor s name? key p := by
  have ⟨p, hp, hfor⟩ := hc.exists_procedure? hk
  have ⟨hmem, hname, hd⟩ := Meaning.of_procedure? hp
  have ⟨i, hi⟩ := SlotTable.exists_get?_ofProcedures hc.distinct hmem 0 0
  rw [hname, hd, ← hU.slots] at hi
  have ⟨p', hp', hfind⟩ := hU.procedure_of_slot hi
  cases hp.symm.trans hfind
  exact ⟨i, p, hi, hp', hname, hfor⟩

section Targets

variable {S : Schema} {options : Options} {hooks : Hooks} {root : Ty} {key : GuardKey}

-- The procedure of a target of a compiled loader. That of the root is the entry.
theorem compileLoader_place {l : Loader}
    (h : (compileLoader S options hooks root).result = .ok l)
    (hk : IsTarget ⟨S, .load, hooks, options⟩ root key) :
    ∃ name? p i q, ProcedureFor ⟨S, .load, hooks, options⟩ name? key p ∧
      name? key = some p.name ∧ l.unit.loads[i]? = some q ∧
      Linker.loadProcedure ⟨S, l.unit.slots, p.locals⟩ p = .ok q ∧
      (key = .origin root → i = l.entry) := by
  have ⟨source, hs, hlink, hentry⟩ := compileLoader_linked h
  have ⟨g, hc, hw, _⟩ := compileProcedures_walked hs
  have ⟨_, _, hname, _⟩ := hc.runs hw key ((hw.mem_iff key).mpr hk)
  have hU := Builder.linked_of_link hlink
  have ⟨i, p, hi, hp, hpn, hfor⟩ := hc.exists_place hU hname
  have ⟨q, hq, hload⟩ := hU.load_of_getElem? hp
  refine ⟨g.lookup, p, i, q, hfor, hpn ▸ hname, hq, hload, fun he => ?_⟩
  rw [Option.some.inj <| hc.entry.symm.trans (he ▸ hname)] at hentry
  exact Slot.load.inj <| Option.some.inj <| hi.symm.trans <| SlotTable.get?_of_load? hentry

theorem compileDumper_place {d : Dumper}
    (h : (compileDumper S options hooks root).result = .ok d)
    (hk : IsTarget ⟨S, .dump, hooks, options⟩ root key) :
    ∃ name? p i q, ProcedureFor ⟨S, .dump, hooks, options⟩ name? key p ∧
      name? key = some p.name ∧ d.unit.dumps[i]? = some q ∧
      Linker.dumpProcedure ⟨S, d.unit.slots, p.locals⟩ p = .ok q ∧
      (key = .origin root → i = d.entry) := by
  have ⟨source, hs, hlink, hentry, _⟩ := compileDumper_linked h
  have ⟨g, hc, hw, _⟩ := compileProcedures_walked hs
  have ⟨_, _, hname, _⟩ := hc.runs hw key ((hw.mem_iff key).mpr hk)
  have hU := Builder.linked_of_link hlink
  have ⟨i, p, hi, hp, hpn, hfor⟩ := hc.exists_place hU hname
  have ⟨q, hq, hdump⟩ := hU.dump_of_getElem? hp
  refine ⟨g.lookup, p, i, q, hfor, hpn ▸ hname, hq, hdump, fun he => ?_⟩
  rw [Option.some.inj <| hc.entry.symm.trans (he ▸ hname)] at hentry
  exact Slot.dump.inj <| Option.some.inj <| hi.symm.trans <| SlotTable.get?_of_dump? hentry

end Targets
end TreeCodec
