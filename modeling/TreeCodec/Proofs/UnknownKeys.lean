import TreeCodec.Proofs.CompileFailure
import TreeCodec.Proofs.LoaderParts
import TreeCodec.Proofs.SideBySide
import TreeCodec.Proofs.Stricter

/-!
Loaders that refuse unknown keys against loaders that do not.

Both are compiled to the same procedures, but for the checks of the keys.
-/
namespace TreeCodec

/-! ## Procedures without checks of keys -/

-- Leaves out the checks of keys.
def Edit.lenient : Edit
  | .rejectUnknownKeys .. => []
  | stmt => [stmt]

namespace Edit

theorem lenient_of_plain {stmt : Stmt} (h : stmt.plain) : lenient stmt = [stmt] := by
  cases stmt <;> first | rfl | nomatch h

theorem alike_lenient (o : Options) :
    Options.Alike lenient { o with denyUnknownKeys := true } { o with denyUnknownKeys := false } where
  plain   := fun _ => lenient_of_plain
  checks  := fun _ _ => rfl
  inserts := fun _ _ => rfl

theorem flatMap_lenient {stmts : List Stmt} (h : ∀ stmt ∈ stmts, stmt.plain) :
    stmts.flatMap lenient = stmts := by
  induction stmts with
  | nil => rfl
  | cons stmt stmts ih =>
    have ⟨hs, h⟩ := List.forall_mem_cons.mp h
    rw [List.flatMap_cons, lenient_of_plain hs, ih h]
    rfl

end Edit

namespace Linker

variable {L : Linker} {x : String} {stmts rest : List Stmt} {checked : Option Expectation}

theorem AssignmentsLinked.plain {n : Nat} {as : List Assignment}
    (h : AssignmentsLinked L x n stmts as) : ∀ stmt ∈ stmts, stmt.plain := by
  induction h with
  | nil => nofun
  | cons _ _ _ _ ih => exact List.forall_mem_cons.mpr ⟨rfl, ih⟩

theorem LoadResultLinked.plain {n : Nat} {stmt : Stmt} {r : LoadResult}
    (h : LoadResultLinked L x n stmt r) : stmt.plain := by
  cases h <;> rfl

-- A body begins with the check of its parameter, whatever comes after it, or with something else.
theorem expectation_cases (h : expectation x stmts = .ok (checked, rest)) :
    (checked = none ∧ rest = stmts) ∨
      ∃ check : Stmt, check.plain ∧ stmts = check :: rest ∧
        ∀ rest', expectation x (check :: rest') = .ok (checked, rest') := by
  unfold expectation at h
  split at h
  case h_1 =>
    split at h
    case isTrue ha => cases h; exact .inr ⟨_, rfl, rfl, fun _ => if_pos ha⟩
    case isFalse => cases h; exact .inl ⟨rfl, rfl⟩
  case h_2 =>
    split at h
    case isTrue ha =>
      split at h
      case isTrue => nomatch h
      case isFalse hlen =>
        cases h
        refine .inr ⟨_, rfl, rfl, fun _ => ?_⟩
        simp only [expectation, if_pos ha, if_neg hlen]
    case isFalse => cases h; exact .inl ⟨rfl, rfl⟩
  case h_3 => cases h; exact .inl ⟨rfl, rfl⟩

theorem knownKeys_of_plain (h : ∀ stmt ∈ stmts, stmt.plain) :
    knownKeys x checked stmts = .ok (none, stmts) := by
  cases stmts with
  | nil => rfl
  | cons stmt stmts =>
    have hs := (List.forall_mem_cons.mp h).left
    cases stmt <;> first | rfl | nomatch hs

-- A check of keys stands behind the check of a mapping.
theorem knownKeys_cases {keys : Option (List String)}
    (h : knownKeys x checked stmts = .ok (keys, rest)) (hr : ∀ stmt ∈ rest, stmt.plain) :
    stmts.flatMap Edit.lenient = rest ∧ (checked = none → stmts = rest) := by
  unfold knownKeys at h
  split at h
  case h_1 =>
    split at h
    case isTrue hc =>
      cases h
      exact ⟨Edit.flatMap_lenient hr, fun hn => nomatch hc.left.symm.trans hn⟩
    case isFalse => nomatch h
  case h_2 =>
    cases h
    exact ⟨Edit.flatMap_lenient hr, fun _ => rfl⟩

-- Without its check of the keys a procedure is linked without one.
theorem loadProcedure_lenient {p : Procedure} {q : LoadProcedure}
    (h : L.loadProcedure p = .ok q) :
    L.loadProcedure (Edit.lenient.procedure p) = .ok q.lenient := by
  simp only [loadProcedure] at h
  obtain ⟨x, hx, h⟩ := exists_of_bind_eq_ok h
  obtain ⟨⟨checked, stmts⟩, hc, h⟩ := exists_of_bind_eq_ok h
  obtain ⟨⟨keys, stmts'⟩, hk, h⟩ := exists_of_bind_eq_ok h
  obtain ⟨⟨as, stmts''⟩, has, h⟩ := exists_of_bind_eq_ok h
  obtain ⟨⟨r, rest⟩, hr, h⟩ := exists_of_bind_eq_ok h
  obtain ⟨_, hrest, h⟩ := exists_of_bind_eq_ok h
  cases h
  dsimp only at hk has hr hrest
  have hplain : ∀ stmt ∈ stmts', stmt.plain := by
    obtain ⟨assigns, hassigns, he⟩ := assignments_linked has
    obtain ⟨last, hlast, hlasts⟩ := loadResult_linked hr
    rw [he, hlasts, eq_nil_of_nothing hrest]
    exact List.forall_mem_append.mpr
      ⟨AssignmentsLinked.plain hassigns, List.forall_mem_singleton.mpr (LoadResultLinked.plain hlast)⟩
  obtain ⟨hstmts, hnone⟩ := knownKeys_cases hk hplain
  have hchecked : expectation x (Edit.lenient.procedure p).body = .ok (checked, stmts') := by
    show expectation x (p.body.flatMap Edit.lenient) = _
    rcases expectation_cases hc with ⟨hn, he⟩ | ⟨check, hcheck, he, hall⟩
    case inl =>
      rw [← he, hstmts]
      rwa [← he, hnone hn] at hc
    case inr =>
      rw [he, List.flatMap_cons, Edit.lenient_of_plain hcheck, hstmts]
      exact hall stmts'
  have hx : parameter (Edit.lenient.procedure p).signature = .ok x := hx
  simp only [loadProcedure, hx, hchecked, knownKeys_of_plain hplain, has, hr, hrest, ok_bind]
  rfl

end Linker

/-! ## Units -/

namespace Edit

variable (f : Edit)

theorem ofProcedures_map (n m : Nat) (ps : List Procedure) :
    SlotTable.ofProcedures n m (ps.map f.procedure) = SlotTable.ofProcedures n m ps := by
  induction ps generalizing n m with
  | nil => rfl
  | cons p ps ih =>
    have hd : (f.procedure p).signature.direction = p.signature.direction := rfl
    cases h : p.signature.direction <;>
      simp only [List.map_cons, SlotTable.ofProcedures, hd, h, ih, name_procedure]

theorem ofDirection_builder (b : Builder) (d : Direction) :
    (f.builder b).ofDirection d = (b.ofDirection d).map f.procedure := by
  simp only [Builder.ofDirection, sealed_builder, List.filter_map]
  rfl

end Edit

theorem Builder.link_lenient {b : Builder} {S : Schema} {U V : CompiledUnit} (hU : b.link S = .ok U)
    (hV : (Edit.lenient.builder b).link S = .ok V) :
    V.slots = U.slots ∧ V.loads = U.loads.map LoadProcedure.lenient := by
  have hb := linked_of_link hU
  have hb' := linked_of_link hV
  have hslots : V.slots = U.slots := by
    rw [hb.slots, hb'.slots, Edit.sealed_builder, Edit.ofProcedures_map]
  refine ⟨hslots, ?_⟩
  have hlinked := hb'.loads
  rw [Edit.ofDirection_builder, List.forall₂_map_left_iff, hslots] at hlinked
  have hlenient : List.Forall₂ (fun p q => Linker.loadProcedure ⟨S, U.slots, p.locals⟩
      (Edit.lenient.procedure p) = .ok q) (b.ofDirection .load)
      (U.loads.map LoadProcedure.lenient) :=
    List.forall₂_map_right_iff.mpr <| hb.loads.imp fun _ _ => Linker.loadProcedure_lenient
  refine List.right_unique_forall₂' (fun _ _ _ hq hq' => ?_) hlinked hlenient
  exact Except.ok.inj (hq.symm.trans hq')

/-! ## Loaders -/

-- A record of records of its own type, with a default.
def parcels : Schema where
  declarations := [
    ("Parcel", {
      names := .qualified "app" "Parcel"
      definition := .record [
        { name := "weight", key := "weight", ty := .scalar (.int .u8), default := some (.int .u8 1) },
        { name := "inside", key := "inside",
          ty := .map .ordered (.scalar .string) (.declared "Parcel") }] false })]

section Expressions

variable {s : Settings} {root : Ty} {name? : GuardKey → Option String} {key : GuardKey}
variable {L : Linker} {scope : Scope} {e : Expr} {le : LoadExpr}

theorem ExprFor.unionFree {t : Ty} {arg : Operand} (h : ExprFor s name? t arg e)
    (hl : LoadLinked L scope e le) : le.UnionFree := by
  induction h generalizing scope le with
  | hook | leaf | call => cases hl <;> trivial
  | optional _ _ ih =>
    cases hl with
    | optional _ _ hl => exact (ih hl :)
  | boxed _ _ ih =>
    cases hl with
    | boxed _ _ hl => exact (ih hl :)
  | list _ _ ih =>
    cases hl with
    | list _ _ hl => exact (ih hl :)
  | map _ _ _ ihk ihv =>
    cases hl with
    | map _ _ hlk hlv => exact ⟨ihk hlk, ihv hlv⟩

-- Unions are converted in their own procedures only.
theorem BodyExpr.unionFree {uses : List (String × Binding)} (h : BodyExpr s name? key e uses)
    (hk : IsTarget s root key)
    (hu : ∀ t, Reached s root t → s.hook? t = none → s.schema.kind t ≠ .union)
    (hl : LoadLinked L scope e le) : le.UnionFree := by
  cases h with
  | value _ he => exact he.unionFree hl
  | slot => cases hl; trivial
  | @union t _ _ _ hkey hh hs =>
    subst hkey
    exact absurd (congrArg Shape.kind hs) (hu t hk.reached hh)

end Expressions

section Loaders

variable {S : Schema} {options : Options} {hooks : Hooks} {root : Ty}

theorem Reached.of_options {d : Direction} {options' : Options} {t : Ty}
    (h : Reached ⟨S, d, hooks, options⟩ root t) : Reached ⟨S, d, hooks, options'⟩ root t := by
  induction h with
  | root => exact .root
  | within _ hh hu ih => exact .within ih hh hu

theorem Settings.alike_lenient (S : Schema) (options : Options) (hooks : Hooks) (d : Direction) :
    Settings.Alike .lenient ⟨S, d, hooks, { options with denyUnknownKeys := true }⟩
      ⟨S, d, hooks, { options with denyUnknownKeys := false }⟩ :=
  ⟨rfl, rfl, Edit.alike_lenient options, fun _ => rfl⟩

-- The compilation with the checks succeeds exactly if the one without them does.
theorem compileProcedures_lenient (S : Schema) (options : Options) (hooks : Hooks) (d : Direction)
    (root : Ty) :
    (compileProcedures S { options with denyUnknownKeys := false } hooks d root).result =
      ((compileProcedures S { options with denyUnknownKeys := true } hooks d root).result.mapError
        Edit.lenient.error).map fun source =>
          ⟨Edit.lenient.builder source.builder, source.entry⟩ :=
  compileProcedures_edited (Settings.alike_lenient S options hooks d) root

theorem exists_strict_source {l : Loader} (h : (compileLoader S options hooks root).result = .ok l) :
    ∃ source, (compileProcedures S { options with denyUnknownKeys := true } hooks .load
      root).result = .ok source := by
  have ⟨source, hs, _⟩ := compileLoader_linked h
  have halike := Settings.alike_lenient S options hooks .load
  obtain ⟨debug, deny, omitNull⟩ := options
  cases deny with
  | true => exact ⟨source, hs⟩
  | false => exact exists_source_of_edited halike hs

theorem exists_strict_and_lenient {l : Loader}
    (h : (compileLoader S options hooks root).result = .ok l) :
    ∃ strict lenient : Loader,
      (compileLoader S { options with denyUnknownKeys := true } hooks root).result = .ok strict ∧
      (compileLoader S { options with denyUnknownKeys := false } hooks root).result = .ok lenient ∧
      lenient.entry = strict.entry ∧
      lenient.unit.loads = strict.unit.loads.map LoadProcedure.lenient := by
  have ⟨source, hs⟩ := exists_strict_source h
  have hs' := compileProcedures_lenient S options hooks .load root
  rw [hs] at hs'
  have ⟨strict, hstrict⟩ := exists_loader_of_procedures hs
  have ⟨lenient, hlenient⟩ := exists_loader_of_procedures hs'
  have ⟨_, hc, hlink, hentry⟩ := compileLoader_linked hstrict
  have ⟨_, hc', hlink', hentry'⟩ := compileLoader_linked hlenient
  cases hs.symm.trans hc
  cases hs'.symm.trans hc'
  have ⟨hslots, hloads⟩ := Builder.link_lenient hlink hlink'
  rw [hslots] at hentry'
  exact ⟨strict, lenient, hstrict, hlenient, Option.some.inj (hentry'.symm.trans hentry), hloads⟩

-- A loader that refuses unknown keys gives what the other one gives, or it meets an unknown key.
theorem load_strict_lenient {l : Loader} (h : (compileLoader S options hooks root).result = .ok l)
    (hu : ∀ t, Reached ⟨S, .load, hooks, options⟩ root t → hooks.load? t = none →
      S.kind t ≠ .union) :
    ∃ strict lenient : Loader,
      (compileLoader S { options with denyUnknownKeys := true } hooks root).result = .ok strict ∧
      (compileLoader S { options with denyUnknownKeys := false } hooks root).result = .ok lenient ∧
      ∀ t : Tree,
        (∀ v, (strict.load S t).outcome = .done v → (lenient.load S t).outcome = .done v) ∧
        ∀ v, (lenient.load S t).outcome = .done v → (strict.load S t).outcome = .done v ∨
          ∃ e key, (strict.load S t).outcome = .failed e ∧ e.fault = .unknownKey key := by
  have ⟨strict, lenient, hstrict, hlenient, hentry, hloads⟩ := exists_strict_and_lenient h
  refine ⟨strict, lenient, hstrict, hlenient, fun t => ?_⟩
  have hfree : ∀ q ∈ strict.unit.loads, q.All LoadExpr.UnionFree := by
    refine compileLoader_all hstrict fun hfor hk _ _ he _ _ hle => he.unionFree hk ?_ hle
    exact fun t ht hh => hu t ht.of_options <| (Settings.load?_eq_none_iff rfl).mpr hh
  have hload : (strict.load S t).Stricter (lenient.load S t) := by
    have hrun := CompiledUnit.load_stricter (S := S) hloads hfree strict.entry (some t) none
    unfold Loader.load Loader.loadOr
    rwa [hentry]
  rcases hload with he | ⟨e, key, he, hk⟩
  case inl => exact ⟨fun v hv => he ▸ hv, fun v hv => .inl (he.trans hv)⟩
  case inr => exact ⟨fun v hv => (nomatch he.symm.trans hv), fun v _ => .inr ⟨e, key, he, hk⟩⟩

end Loaders

theorem load_strict_lenient_parcels :
    ∃ strict lenient : Loader,
      (compileLoader parcels { denyUnknownKeys := true } {} (.declared "Parcel")).result = .ok strict ∧
      (compileLoader parcels {} {} (.declared "Parcel")).result = .ok lenient ∧
      ∀ t : Tree,
        (∀ v, (strict.load parcels t).outcome = .done v → (lenient.load parcels t).outcome = .done v) ∧
        ∀ v, (lenient.load parcels t).outcome = .done v →
          (strict.load parcels t).outcome = .done v ∨
            ∃ e key, (strict.load parcels t).outcome = .failed e ∧ e.fault = .unknownKey key := by
  have ⟨l, hl⟩ := Compiled.exists_ok (x := compileLoader parcels {} {} (.declared "Parcel"))
    (by decide +kernel)
  have hkinds : ∀ t ∈ WrapperSet.reachable parcels [.declared "Parcel"],
      parcels.kind t ≠ .union := by
    decide +kernel
  have hloads := load_strict_lenient hl fun t ht _ => hkinds t ht.mem_reachable
  exact hloads

end TreeCodec
