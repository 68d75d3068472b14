import TreeCodec.Proofs.LinkLoad

/-!
The unit of a compiled loader: the procedure of every target does what the target does, given what
the procedures of the targets that it calls do.
-/
namespace TreeCodec

namespace SlotTable

-- Procedures of different names that all convert in one direction are in their places, one after the
-- other.
theorem get?_ofProcedures {ps : List Procedure} {d : Direction}
    (hd : ∀ p ∈ ps, p.signature.direction = d) (hn : (ps.map Procedure.name).Nodup) {i : Nat}
    {p : Procedure} (h : ps[i]? = some p) (n m : Nat) :
    Keyed.get? p.name (ofProcedures n m ps) =
      some (match d with | .load => .load (n + i) | .dump => .dump (m + i)) := by
  induction ps generalizing i n m with
  | nil => simp at h
  | cons q ps ih =>
    have hq : q.signature.direction = d := hd q (List.mem_cons_self ..)
    simp only [List.map_cons, List.nodup_cons] at hn
    cases i with
    | zero =>
      have he : q = p := by simpa using h
      subst he
      cases d <;> simp only [ofProcedures, hq, Keyed.get?, if_true, Nat.add_zero]
    | succ i =>
      have h : ps[i]? = some p := by simpa using h
      have hne : q.name ≠ p.name := by
        intro he
        exact hn.left <| List.mem_map.mpr ⟨p, List.mem_of_getElem? h, he.symm⟩
      have hrest := ih (fun p hp => hd p (List.mem_cons_of_mem _ hp)) hn.right h
      cases d <;> simp only [ofProcedures, hq, Keyed.get?, if_neg hne, hrest] <;> congr 2 <;> omega

end SlotTable

-- Procedures that all load and that all link are linked one after the other.
theorem Builder.linkAll_load (b : Builder) (S : Schema) (slots : SlotTable)
    (R : Procedure → LoadProcedure → Prop) (ps : List Procedure)
    (h : ∀ p ∈ ps, p.signature.direction = .load ∧
      ∃ q, Linker.loadProcedure ⟨S, slots, p.locals⟩ p = .ok q ∧ R p q) :
    ∃ loads, b.linkAll S slots ps = .ok (loads, []) ∧ List.Forall₂ R ps loads := by
  induction ps with
  | nil => exact ⟨[], rfl, .nil⟩
  | cons p ps ih =>
    have ⟨hd, q, hq, hr⟩ := h p (List.mem_cons_self ..)
    have ⟨loads, hl, hrs⟩ := ih fun p hp => h p (List.mem_cons_of_mem _ hp)
    refine ⟨q :: loads, ?_, .cons hr hrs⟩
    simp [linkAll, hd, hq, hl, Except.mapError]
    rfl

namespace CompiledUnit

-- Calls of the targets that have procedures in a unit, nesting at most `n` calls.
def targetLoads (U : CompiledUnit) (S : Schema) (name? : GuardKey → Option String) (n : Nat) :
    GuardKey → Load.Rule :=
  calledLoad name? U.slots (U.callLoad S n)

end CompiledUnit

-- In a unit every target that has a name has a procedure that does what the target does.
structure LoadsTargets (s : Settings) (name? : GuardKey → Option String) (U : CompiledUnit) :
    Prop where
  named : ∀ key name, name? key = some name → ∃ i, U.slots.load? name = some i
  step  : ∀ key name, name? key = some name → ∀ n input,
    (U.targetLoads s.schema name? (n + 1) key input).untrailed =
      (Target.load s.schema s.hooks s.options (U.targetLoads s.schema name? n) key input).untrailed

theorem Compilation.link_load {s : Settings} {root : Ty} {source : Source}
    {name? : GuardKey → Option String} (hc : Compilation s root source name?)
    (hd : s.direction = .load) (hb : ∀ p ∈ source.builder.sealed, p.HelpersBound s) :
    ∃ U, source.builder.link s.schema = .ok U ∧ LoadsTargets s name? U := by
  have hdir : ∀ p ∈ source.builder.sealed, p.signature.direction = .load := by
    intro p hp
    obtain ⟨_, _, hfor⟩ := hc.made p hp
    rw [hfor.signature, hd]
    rfl
  have hslot : ∀ key name, name? key = some name →
      ∃ i p, source.builder.sealed[i]? = some p ∧ ProcedureFor s name? key p ∧
        Keyed.get? name (SlotTable.ofProcedures 0 0 source.builder.sealed) = some (.load i) := by
    intro key name hk
    obtain ⟨p, hp, rfl, hfor⟩ := hc.covered key name hk
    obtain ⟨i, hi⟩ := List.getElem?_of_mem hp
    exact ⟨i, p, hi, hfor, by simpa using SlotTable.get?_ofProcedures hdir hc.distinct hi 0 0⟩
  generalize hslots : SlotTable.ofProcedures 0 0 source.builder.sealed = slots at hslot
  have hlink : ∀ p, LoadLinker s name? ⟨s.schema, slots, p⟩ := fun _ =>
    ⟨hd, rfl, fun key name hk => have ⟨i, _, _, _, hi⟩ := hslot key name hk; ⟨i, hi⟩⟩
  obtain ⟨loads, hl, hrs⟩ := source.builder.linkAll_load s.schema slots
    (fun p q => ∀ key, ProcedureFor s name? key p → ∀ callee input,
      (q.run s.schema callee input none).untrailed =
        (Target.load s.schema s.hooks s.options (calledLoad name? slots callee) key
          input).untrailed) source.builder.sealed (by
      intro p hp
      refine ⟨hdir p hp, ?_⟩
      obtain ⟨key, _, hfor⟩ := hc.made p hp
      obtain ⟨q, hq, _⟩ := (hlink p.locals).link_procedure rfl hfor (hb p hp)
      refine ⟨q, hq, fun key' hfor' => ?_⟩
      obtain ⟨q', hq', hrun⟩ := (hlink p.locals).link_procedure rfl hfor' (hb p hp)
      cases hq.symm.trans hq'
      exact hrun)
  refine ⟨⟨source.builder.record, loads, [], slots, source.builder.listing⟩, ?_, ?_, ?_⟩
  · simp only [Builder.link, hc.pending, hslots, hl]
    rfl
  · intro key name hk
    obtain ⟨i, _, _, _, hi⟩ := hslot key name hk
    exact ⟨i, by simp [SlotTable.load?, hi]⟩
  · intro key name hk n input
    obtain ⟨i, p, hp, hfor, hi⟩ := hslot key name hk
    rcases getElem?_of_forall₂ hrs i with ⟨hn, _⟩ | ⟨p', q, hp', hq, hr⟩
    · simp [hn] at hp
    · cases hp.symm.trans hp'
      simp only [CompiledUnit.targetLoads, calledLoad, hk, Option.bind_some, SlotTable.load?, hi,
        CompiledUnit.callLoad, hq]
      exact hr key hfor _ input

-- The procedures of a compilation that does not mix up helpers link.
theorem exists_loadsTargets {S : Schema} {options : Options} {hooks : Hooks} {root : Ty}
    {source : Source} (hs : (compileProcedures S options hooks .load root).result = .ok source)
    (hd : ∀ p ∈ source.builder.sealed, p.HelpersDistinct ⟨S, .load, hooks, options⟩) :
    ∃ name? U, Compilation ⟨S, .load, hooks, options⟩ root source name? ∧
      source.builder.link S = .ok U ∧ LoadsTargets ⟨S, .load, hooks, options⟩ name? U := by
  have ⟨name?, hc⟩ := compileProcedures_compilation hs
  have hb : ∀ p ∈ source.builder.sealed, p.HelpersBound ⟨S, .load, hooks, options⟩ := by
    intro p hp
    have ⟨_, _, hfor⟩ := hc.made p hp
    exact hfor.helpersBound_iff.mpr <| hd p hp
  have ⟨U, hlink, hU⟩ := hc.link_load rfl hb
  exact ⟨name?, U, hc, hlink, hU⟩

theorem compileLoader_linked {S : Schema} {options : Options} {hooks : Hooks} {root : Ty}
    {l : Loader} (h : (compileLoader S options hooks root).result = .ok l) :
    ∃ source, (compileProcedures S options hooks .load root).result = .ok source ∧
      source.builder.link S = .ok l.unit ∧ l.unit.slots.load? source.entry = some l.entry := by
  unfold compileLoader Compiled.bind at h
  cases hs : (compileProcedures S options hooks .load root).result with
  | error e => simp [hs] at h
  | ok source =>
    simp only [hs] at h
    cases hU : source.builder.link S with
    | error e => simp [hU, bind, Except.bind] at h
    | ok U =>
      simp only [hU, Linker.ok_bind, Loader.ofUnit, CompiledUnit.loader?] at h
      cases hi : U.slots.load? source.entry with
      | none => simp [hi] at h
      | some i =>
        simp only [hi] at h
        cases h
        exact ⟨source, rfl, hU, hi⟩

-- The procedures of a compiled loader do what the targets of its source do, helpers being distinct.
theorem compileLoader_loadsTargets {S : Schema} {options : Options} {hooks : Hooks} {root : Ty}
    {source : Source} {l : Loader}
    (hs : (compileProcedures S options hooks .load root).result = .ok source)
    (hl : (compileLoader S options hooks root).result = .ok l)
    (hd : ∀ p ∈ source.builder.sealed, p.HelpersDistinct ⟨S, .load, hooks, options⟩) :
    ∃ name?, Compilation ⟨S, .load, hooks, options⟩ root source name? ∧
      LoadsTargets ⟨S, .load, hooks, options⟩ name? l.unit ∧
      l.unit.slots.load? source.entry = some l.entry := by
  have ⟨_, hs', hlink, hi⟩ := compileLoader_linked hl
  cases hs.symm.trans hs'
  have ⟨name?, _, hc, hlink', hU⟩ := exists_loadsTargets hs hd
  cases hlink.symm.trans hlink'
  exact ⟨name?, hc, hU, hi⟩

theorem compileLoader_of_link {S : Schema} {options : Options} {hooks : Hooks} {root : Ty}
    {source : Source} {U : CompiledUnit} {i : Nat}
    (hs : (compileProcedures S options hooks .load root).result = .ok source)
    (hU : source.builder.link S = .ok U) (hi : U.slots.load? source.entry = some i) :
    (compileLoader S options hooks root).result = .ok ⟨U, i, source.entry, root⟩ := by
  simp only [compileLoader, Compiled.bind, hs, hU, Linker.ok_bind, Loader.ofUnit,
    CompiledUnit.loader?, hi]

end TreeCodec
