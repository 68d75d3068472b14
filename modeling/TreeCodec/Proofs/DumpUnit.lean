import TreeCodec.Proofs.LinkDump
import TreeCodec.Proofs.LoadUnit

/-!
The unit of a compiled dumper: the procedure of every target does what the target does, given what
the procedures of the targets that it calls do.
-/
namespace TreeCodec

-- Procedures that all dump and that all link are linked one after the other.
theorem Builder.linkAll_dump (b : Builder) (S : Schema) (slots : SlotTable)
    (R : Procedure → DumpProcedure → Prop) (ps : List Procedure)
    (h : ∀ p ∈ ps, p.signature.direction = .dump ∧
      ∃ q, Linker.dumpProcedure ⟨S, slots, p.locals⟩ p = .ok q ∧ R p q) :
    ∃ dumps, b.linkAll S slots ps = .ok ([], dumps) ∧ List.Forall₂ R ps dumps := by
  induction ps with
  | nil => exact ⟨[], rfl, .nil⟩
  | cons p ps ih =>
    have ⟨hd, q, hq, hr⟩ := h p (List.mem_cons_self ..)
    have ⟨dumps, hl, hrs⟩ := ih fun p hp => h p (List.mem_cons_of_mem _ hp)
    refine ⟨q :: dumps, ?_, .cons hr hrs⟩
    simp [linkAll, hd, hq, hl, Except.mapError]
    rfl

namespace CompiledUnit

-- Calls of the targets that have procedures in a unit, nesting at most `n` calls.
def targetDumps (U : CompiledUnit) (S : Schema) (name? : GuardKey → Option String) (n : Nat) :
    GuardKey → Dump.Rule :=
  calledDump name? U.slots (U.callDump S n)

end CompiledUnit

-- In a unit every target that has a name has a procedure that does what the target does.
structure DumpsTargets (s : Settings) (name? : GuardKey → Option String) (U : CompiledUnit) :
    Prop where
  named : ∀ key name, name? key = some name → ∃ i, U.slots.dump? name = some i
  step  : ∀ key name, name? key = some name → ∀ n v,
    (U.targetDumps s.schema name? (n + 1) key v).untrailed =
      (Target.dump s.schema s.hooks s.options (U.targetDumps s.schema name? n) key v).untrailed

theorem Compilation.link_dump {s : Settings} {root : Ty} {source : Source}
    {name? : GuardKey → Option String} (hc : Compilation s root source name?)
    (hd : s.direction = .dump) (hb : ∀ p ∈ source.builder.sealed, p.HelpersBound s) :
    ∃ U, source.builder.link s.schema = .ok U ∧ DumpsTargets s name? U := by
  have hdir : ∀ p ∈ source.builder.sealed, p.signature.direction = .dump := by
    intro p hp
    obtain ⟨_, _, hfor⟩ := hc.made p hp
    rw [hfor.signature, hd]
    rfl
  have hslot : ∀ key name, name? key = some name →
      ∃ i p, source.builder.sealed[i]? = some p ∧ ProcedureFor s name? key p ∧
        Keyed.get? name (SlotTable.ofProcedures 0 0 source.builder.sealed) = some (.dump i) := by
    intro key name hk
    obtain ⟨p, hp, rfl, hfor⟩ := hc.covered key name hk
    obtain ⟨i, hi⟩ := List.getElem?_of_mem hp
    exact ⟨i, p, hi, hfor, by simpa using SlotTable.get?_ofProcedures hdir hc.distinct hi 0 0⟩
  generalize hslots : SlotTable.ofProcedures 0 0 source.builder.sealed = slots at hslot
  have hlink : ∀ p, DumpLinker s name? ⟨s.schema, slots, p⟩ := fun _ =>
    ⟨hd, rfl, fun key name hk => have ⟨i, _, _, _, hi⟩ := hslot key name hk; ⟨i, hi⟩⟩
  obtain ⟨dumps, hl, hrs⟩ := source.builder.linkAll_dump s.schema slots
    (fun p q => ∀ key, ProcedureFor s name? key p → ∀ callee v,
      (q.run s.schema callee v).untrailed =
        (Target.dump s.schema s.hooks s.options (calledDump name? slots callee) key v).untrailed)
    source.builder.sealed (by
      intro p hp
      refine ⟨hdir p hp, ?_⟩
      obtain ⟨key, _, hfor⟩ := hc.made p hp
      obtain ⟨q, hq, _⟩ := (hlink p.locals).link_procedure rfl hfor (hb p hp)
      refine ⟨q, hq, fun key' hfor' => ?_⟩
      obtain ⟨q', hq', hrun⟩ := (hlink p.locals).link_procedure rfl hfor' (hb p hp)
      cases hq.symm.trans hq'
      exact hrun)
  refine ⟨⟨source.builder.record, [], dumps, slots, source.builder.listing⟩, ?_, ?_, ?_⟩
  · simp only [Builder.link, hc.pending, hslots, hl]
    rfl
  · intro key name hk
    obtain ⟨i, _, _, _, hi⟩ := hslot key name hk
    exact ⟨i, by simp [SlotTable.dump?, hi]⟩
  · intro key name hk n v
    obtain ⟨i, p, hp, hfor, hi⟩ := hslot key name hk
    rcases getElem?_of_forall₂ hrs i with ⟨hn, _⟩ | ⟨p', q, hp', hq, hr⟩
    · simp [hn] at hp
    · cases hp.symm.trans hp'
      simp only [CompiledUnit.targetDumps, calledDump, hk, Option.bind_some, SlotTable.dump?, hi,
        CompiledUnit.callDump, hq]
      exact hr key hfor _ v

-- The procedures of a compilation that does not mix up helpers link.
theorem exists_dumpsTargets {S : Schema} {options : Options} {hooks : Hooks} {root : Ty}
    {source : Source} (hs : (compileProcedures S options hooks .dump root).result = .ok source)
    (hd : ∀ p ∈ source.builder.sealed, p.HelpersDistinct ⟨S, .dump, hooks, options⟩) :
    ∃ name? U, Compilation ⟨S, .dump, hooks, options⟩ root source name? ∧
      source.builder.link S = .ok U ∧ DumpsTargets ⟨S, .dump, hooks, options⟩ name? U := by
  have ⟨name?, hc⟩ := compileProcedures_compilation hs
  have hb : ∀ p ∈ source.builder.sealed, p.HelpersBound ⟨S, .dump, hooks, options⟩ := by
    intro p hp
    have ⟨_, _, hfor⟩ := hc.made p hp
    exact hfor.helpersBound_iff.mpr <| hd p hp
  have ⟨U, hlink, hU⟩ := hc.link_dump rfl hb
  exact ⟨name?, U, hc, hlink, hU⟩

theorem compileDumper_linked {S : Schema} {options : Options} {hooks : Hooks} {root : Ty}
    {d : Dumper} (h : (compileDumper S options hooks root).result = .ok d) :
    ∃ source, (compileProcedures S options hooks .dump root).result = .ok source ∧
      source.builder.link S = .ok d.unit ∧ d.unit.slots.dump? source.entry = some d.entry ∧
      d.root = root := by
  unfold compileDumper Compiled.bind at h
  cases hs : (compileProcedures S options hooks .dump root).result with
  | error e => simp [hs] at h
  | ok source =>
    simp only [hs] at h
    cases hU : source.builder.link S with
    | error e => simp [hU, bind, Except.bind] at h
    | ok U =>
      simp only [hU, Linker.ok_bind, Dumper.ofUnit, CompiledUnit.dumper?] at h
      cases hi : U.slots.dump? source.entry with
      | none => simp [hi] at h
      | some i =>
        simp only [hi] at h
        cases h
        exact ⟨source, rfl, hU, hi, rfl⟩

theorem compileDumper_of_link {S : Schema} {options : Options} {hooks : Hooks} {root : Ty}
    {source : Source} {U : CompiledUnit} {i : Nat}
    (hs : (compileProcedures S options hooks .dump root).result = .ok source)
    (hU : source.builder.link S = .ok U) (hi : U.slots.dump? source.entry = some i) :
    (compileDumper S options hooks root).result = .ok ⟨U, i, source.entry, root⟩ := by
  simp only [compileDumper, Compiled.bind, hs, hU, Linker.ok_bind, Dumper.ofUnit,
    CompiledUnit.dumper?, hi]

end TreeCodec
