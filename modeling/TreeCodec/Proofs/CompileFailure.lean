import TreeCodec.Proofs.Generated
import TreeCodec.Proofs.Traversal

/-!
A compilation fails for a foreign type only: for the first one without a hook that it comes to. All
procedures that it gives link.
-/
namespace TreeCodec

section Link

variable {s : Settings} {root : Ty} {source : Source} {name? : GuardKey → Option String}

theorem Compilation.defined (hc : Compilation s root source name?) {key : GuardKey} {name : String}
    (h : name? key = some name) :
    WellFormed.Defined source.builder.sealed s.direction name := by
  have ⟨p, hp, hname, hfor⟩ := hc.covered key name h
  refine ⟨p, hp, hname, ?_⟩
  rw [hfor.signature]
  cases s.direction <;> rfl

-- The procedures of a compilation become one unit, in which the entry has its place.
theorem Compilation.exists_link (hc : Compilation s root source name?) :
    ∃ U i, source.builder.link s.schema = .ok U ∧
      Keyed.get? source.entry U.slots = some (s.direction.slot i) := by
  have hwf : ∀ p ∈ source.builder.sealed,
      WellFormed.WellFormedProcedure s.schema source.builder.sealed p := by
    intro p hp
    have ⟨_, _, hfor⟩ := hc.made p hp
    exact hfor.wellFormed fun _ _ => hc.defined
  have ⟨U, hlink, hslots⟩ := Builder.exists_link hc.pending hc.distinct hwf
  have ⟨p, hp, hname, hd⟩ := hc.defined hc.entry
  have ⟨i, hi⟩ := SlotTable.exists_get?_ofProcedures hc.distinct hp 0 0
  exact ⟨U, i, hlink, by rw [hslots, ← hname, hi, hd]⟩

end Link

variable {S : Schema} {options : Options} {hooks : Hooks} {root : Ty}

theorem exists_loader_of_procedures {source : Source}
    (h : (compileProcedures S options hooks .load root).result = .ok source) :
    ∃ l, (compileLoader S options hooks root).result = .ok l := by
  have ⟨_, hc⟩ := compileProcedures_compilation h
  have ⟨U, i, hlink, hi⟩ := hc.exists_link
  exact ⟨_, compileLoader_of_link (i := i) h hlink (by simp [SlotTable.load?, hi, Direction.slot])⟩

theorem exists_dumper_of_procedures {source : Source}
    (h : (compileProcedures S options hooks .dump root).result = .ok source) :
    ∃ d, (compileDumper S options hooks root).result = .ok d := by
  have ⟨_, hc⟩ := compileProcedures_compilation h
  have ⟨U, i, hlink, hi⟩ := hc.exists_link
  exact ⟨_, compileDumper_of_link (i := i) h hlink (by simp [SlotTable.dump?, hi, Direction.slot])⟩

theorem Compiled.bind_error {α β : Type} {x : Compiled α} {e : CodegenError}
    (h : x.result = .error e) (f : α → Compiled β) : (x.bind f).result = .error e := by
  simp only [Compiled.bind, h]

-- Where no procedures are compiled there is nothing to link.
theorem compileLoader_error {e : CodegenError}
    (h : (compileProcedures S options hooks .load root).result = .error e) :
    (compileLoader S options hooks root).result = .error e := by
  unfold compileLoader
  exact Compiled.bind_error h _

theorem compileDumper_error {e : CodegenError}
    (h : (compileProcedures S options hooks .dump root).result = .error e) :
    (compileDumper S options hooks root).result = .error e := by
  unfold compileDumper
  exact Compiled.bind_error h _

-- A result is a failure exactly if a foreign type without a hook is met from a root. The failure
-- names the first such type, in the order in which the types are gone through.
structure FailsForForeign {α : Type} (s : Settings) (root : Ty) (result : Except CodegenError α) :
    Prop where
  fails : (∃ e, result = .error e) ↔
    ∃ t, Reached s root t ∧ s.hook? t = none ∧ s.schema.shape t = .foreign
  first : ∀ e, result = .error e ↔
    ∃ t, Walk.FromRoot s root (.error t) ∧ e = .unsupported (s.schema.path t) s.direction

-- What succeeds where a compilation gives procedures, and fails as it does, fails for a foreign
-- type.
theorem failsForForeign {α : Type} {d : Direction} {result : Except CodegenError α}
    (hok : ∀ source, (compileProcedures S options hooks d root).result = .ok source →
      ∃ a, result = .ok a)
    (herror : ∀ e, (compileProcedures S options hooks d root).result = .error e →
      result = .error e) : FailsForForeign ⟨S, d, hooks, options⟩ root result := by
  cases hs : (compileProcedures S options hooks d root).result with
  | ok source =>
    have ⟨a, ha⟩ := hok source hs
    have ⟨g, _, hwalk, _⟩ := compileProcedures_walked hs
    subst ha
    constructor
    case fails =>
      constructor
      case mp => exact fun ⟨_, h⟩ => nomatch h
      case mpr => exact fun ⟨t, ht, hh, hf⟩ => absurd hf <| hwalk.not_foreign ht hh
    case first => exact fun e => ⟨nofun, fun ⟨t, ht, _⟩ => nomatch Walk.unique hwalk ht⟩
  | error e =>
    have he := herror e hs
    have ⟨t, hwalk, hpath⟩ := compileProcedures_stopped hs
    subst he
    constructor
    case fails => exact ⟨fun _ => ⟨t, hwalk.error_reached⟩, fun _ => ⟨e, rfl⟩⟩
    case first =>
      intro e'
      constructor
      case mp => exact fun h => ⟨t, hwalk, Except.error.inj h ▸ hpath⟩
      case mpr =>
        rintro ⟨t', hwalk', rfl⟩
        cases Walk.unique hwalk hwalk'
        rw [hpath]

-- Compiling a loader or a dumper fails for a foreign type only, and what is compiled always links.
theorem compile_failsForForeign (S : Schema) (options : Options) (hooks : Hooks) (root : Ty) :
    FailsForForeign ⟨S, .load, hooks, options⟩ root (compileLoader S options hooks root).result ∧
      FailsForForeign ⟨S, .dump, hooks, options⟩ root (compileDumper S options hooks root).result ∧
      ∀ d source, (compileProcedures S options hooks d root).result = .ok source →
        ∃ U, source.builder.link S = .ok U := by
  refine ⟨?load, ?dump, ?links⟩
  case load =>
    exact failsForForeign (fun _ => exists_loader_of_procedures) fun _ => compileLoader_error
  case dump =>
    exact failsForForeign (fun _ => exists_dumper_of_procedures) fun _ => compileDumper_error
  case links =>
    intro d source hs
    have ⟨_, hc⟩ := compileProcedures_compilation hs
    have ⟨U, _, hlink, _⟩ := hc.exists_link
    exact ⟨U, hlink⟩

end TreeCodec
