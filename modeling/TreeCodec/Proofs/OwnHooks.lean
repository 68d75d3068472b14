import TreeCodec.Proofs.SideBySide

/-!
A compilation reads the hooks of its own direction only.
-/
namespace TreeCodec

theorem Options.alike_keep (o : Options) : o.Alike .keep o where
  plain   := fun _ _ => rfl
  checks  := fun _ _ => rfl
  inserts := fun _ _ => rfl

section Converters

variable (S : Schema) (options : Options) {hooks hooks' : Hooks}

-- With the same options nothing is edited.
theorem compileProcedures_congr {d : Direction}
    (h : ∀ t, Settings.hook? ⟨S, d, hooks, options⟩ t = Settings.hook? ⟨S, d, hooks', options⟩ t)
    (root : Ty) :
    compileProcedures S options hooks d root = compileProcedures S options hooks' d root := by
  have hs : Settings.Alike .keep ⟨S, d, hooks, options⟩ ⟨S, d, hooks', options⟩ :=
    ⟨rfl, rfl, options.alike_keep, h⟩
  have hstep := entryStep_mirrored .keep S d root _ _ hs (.new (Text.identifier (S.name root)))
  rw [Edit.context_keep] at hstep
  simp only [compileProcedures, ReaderT.run, EStateM.run, hstep]
  cases entryStep S d root ⟨S, d, hooks, options⟩ (.new (Text.identifier (S.name root))) <;>
    simp only [Edit.result, Edit.context_keep, Edit.error_keep, id]

-- A loader is compiled from the load hooks.
theorem compileLoader_congr (h : ∀ t, hooks.load? t = hooks'.load? t) (root : Ty) :
    compileLoader S options hooks root = compileLoader S options hooks' root := by
  have hhook (t : Ty) : Settings.hook? ⟨S, .load, hooks, options⟩ t =
      Settings.hook? ⟨S, .load, hooks', options⟩ t :=
    congrArg (Option.map Binding.loadHook) (h t)
  simp only [compileLoader, compileProcedures_congr S options hhook]

-- A dumper is compiled from the dump hooks.
theorem compileDumper_congr (h : ∀ t, hooks.dump? t = hooks'.dump? t) (root : Ty) :
    compileDumper S options hooks root = compileDumper S options hooks' root := by
  have hhook (t : Ty) : Settings.hook? ⟨S, .dump, hooks, options⟩ t =
      Settings.hook? ⟨S, .dump, hooks', options⟩ t :=
    congrArg (Option.map Binding.dumpHook) (h t)
  simp only [compileDumper, compileProcedures_congr S options hhook]

end Converters
end TreeCodec
