import TreeCodec.Proofs.DumpedEntries
import TreeCodec.Proofs.ErrorPath
import TreeCodec.Proofs.HelperNames
import TreeCodec.Proofs.LoadedType
import TreeCodec.Proofs.NullsKept

/-!
Which variant a dumped union is loaded as.

Nothing in the tree tells the variant. Loading takes the first variant that accepts the tree, so a
union comes back as the variant that it was dumped from, or as an earlier one that accepts the tree.
-/
namespace TreeCodec

/-! ## The first that accepts -/

-- The run gives a value.
def Run.Accepts (x : Run Value) : Prop :=
  ∃ w, x.outcome = .done w

namespace Outcome

variable {α : Type} {o o' : Outcome α}

theorem done_of_untrailed_eq (h : o.untrailed = o'.untrailed) {a : α} (ho : o = .done a) :
    o' = .done a :=
  untrailed_eq_done_iff.mp <| h ▸ untrailed_eq_done_iff.mpr ho

theorem failed_of_untrailed_eq (h : o.untrailed = o'.untrailed) {e : ConversionError}
    (ho : o = .failed e) : ∃ e', o' = .failed e' :=
  have ⟨e', he, _⟩ := exists_failed_of_untrailed (ho ▸ h)
  ⟨e', he⟩

end Outcome

-- The first of some runs, numbered from zero, that gives a value, where those before it fail.
inductive Chooses {α : Type} (run : α → Run Value) (w : Value) : List α → Nat → Prop
  | here {a : α} {as : List α} :
    (run a).outcome = .done w → Chooses run w (a :: as) 0
  | there {a : α} {as : List α} {j : Nat} {e : ConversionError} :
    (run a).outcome = .failed e → Chooses run w as j → Chooses run w (a :: as) (j + 1)

-- If a run gives a value and the ones before it end, one of them is chosen.
theorem exists_chooses {α : Type} {run : α → Run Value} {as : List α} {i : Nat} {a : α}
    (hi : as[i]? = some a) (ha : (run a).Accepts)
    (hends : ∀ k < i, ∀ b, as[k]? = some b → (run b).Finished) :
    ∃ j w, j ≤ i ∧ Chooses run w as j := by
  induction as generalizing i with
  | nil => nomatch hi
  | cons b as ih =>
    cases i with
    | zero =>
      cases hi
      have ⟨w, hw⟩ := ha
      exact ⟨0, w, Nat.le_refl 0, .here hw⟩
    | succ i =>
      cases hb : (run b).outcome with
      | done w => exact ⟨0, w, Nat.zero_le _, .here hb⟩
      | failed e =>
        have ⟨j, w, hj, hc⟩ := ih hi fun k hk => hends (k + 1) (Nat.succ_lt_succ hk)
        exact ⟨j + 1, w, Nat.succ_le_succ hj, .there hb hc⟩
      | unfinished => exact absurd hb (hends 0 (Nat.succ_pos i) b rfl)

namespace Chooses

variable {α : Type} {run run' : α → Run Value} {w : Value} {as : List α} {j : Nat}

theorem accepts (h : Chooses run w as j) :
    ∃ a, as[j]? = some a ∧ (run a).outcome = .done w := by
  induction h with
  | here hw      => exact ⟨_, rfl, hw⟩
  | there _ _ ih => exact ih

theorem refused (h : Chooses run w as j) :
    ∀ k < j, ∀ a, as[k]? = some a → ¬(run a).Accepts := by
  induction h with
  | here => nofun
  | there he _ ih =>
    rintro k hk a ha ⟨v, hv⟩
    cases k with
    | zero =>
      cases ha
      nomatch he.symm.trans hv
    | succ k => exact ih k (Nat.lt_of_succ_lt_succ hk) a ha ⟨v, hv⟩

theorem of_untrailed_eq (h : Chooses run w as j)
    (hruns : ∀ a ∈ as, (run a).outcome.untrailed = (run' a).outcome.untrailed) :
    Chooses run' w as j := by
  induction h with
  | here hw => exact .here (Outcome.done_of_untrailed_eq (hruns _ List.mem_cons_self) hw)
  | there he _ ih =>
    have ⟨_, he'⟩ := Outcome.failed_of_untrailed_eq (hruns _ List.mem_cons_self) he
    exact .there he' (ih fun a ha => hruns a (.tail _ ha))

-- Loading goes on to the next rule exactly where a rule fails.
theorem firstOf_eq {S : Schema} {rule : α → Load.Rule} {x : Tree}
    (h : Chooses (fun a => rule a (some x)) w as j) (t : Ty) (variants : List Variant) (i : Nat) :
    (Load.firstOf S t variants x i (as.map rule)).outcome =
      (Run.ofExcept (S.wrapVariant t variants (i + j) w)).outcome := by
  induction h generalizing i with
  | here hw =>
    rw [List.map_cons, Load.outcome_firstOf_cons, hw]
    rfl
  | @there _ _ j _ he _ ih =>
    rw [List.map_cons, Load.outcome_firstOf_cons, he, Nat.add_comm j, ← Nat.add_assoc]
    exact ih (i + 1)

end Chooses

/-! ## Unions -/

namespace Direct

variable {S : Schema} {hooks : Hooks} {options : Options} {id : String} {variants : List Variant}
  (hs : S.shape (.declared id) = .union variants)
include hs

theorem load_union (hh : hooks.load? (.declared id) = none) (n : Nat) :
    load S hooks options (n + 1) (.declared id) =
      Load.union S (.declared id) variants (variants.map fun v => load S hooks options n v.ty) := by
  rw [load, loadType, loadHooked, hh, loadWithin, loadDeclared, hs]
  rfl

theorem load_union_of_chooses (hh : hooks.load? (.declared id) = none) (ht : hooks.Typed) {n j : Nat}
    {x : Tree} {w : Value}
    (hc : Chooses (fun v : Variant => load S hooks options n v.ty (some x)) w variants j) :
    (load S hooks options (n + 1) (.declared id) (some x)).outcome = .done (.union id j w) := by
  have ⟨v, hv, hw⟩ := hc.accepts
  have hwrap : S.wrapVariant (.declared id) variants j w = .ok (.union id j w) :=
    Schema.wrapVariant_eq_ok_iff.mpr ⟨v, hv, load_ofType ht n v.ty w hw, rfl⟩
  have hfirst : (Load.firstOf S (.declared id) variants x 0
      (variants.map fun v => load S hooks options n v.ty)).outcome =
      (Run.ofExcept (S.wrapVariant (.declared id) variants (0 + j) w)).outcome :=
    Chooses.firstOf_eq hc _ _ 0
  rw [Nat.zero_add, hwrap] at hfirst
  rw [load_union hs hh]
  exact hfirst

theorem dump_union (hh : hooks.dump? (.declared id) = none) (n : Nat) :
    dump S hooks options (n + 1) (.declared id) =
      Dump.union S (.declared id) (variants.map fun v => dump S hooks options n v.ty) := by
  rw [dump, dumpType, dumpHooked_of_none hh, dumpWithin, dumpDeclared, hs]
  rfl

-- A union is dumped as the value that it holds.
theorem DumpsTo.union (hh : hooks.dump? (.declared id) = none) {i : Nat} {variant : Variant}
    (hi : variants[i]? = some variant) {p : Value} {x : Tree}
    (h : DumpsTo S hooks options variant.ty p x) :
    DumpsTo S hooks options (.declared id) (.union id i p) x := by
  have ⟨n, hn⟩ := h
  have ha : S.activeVariant (.declared id) (.union id i p) = .ok (i, p) :=
    Schema.activeVariant_eq_ok_iff.mpr ⟨rfl, id, rfl⟩
  refine ⟨n + 1, ?_⟩
  rw [dump_union hs hh, Dump.union, ha, Run.ofExcept_ok, Run.pure_bind]
  simp only [List.getElem?_map, hi, Option.map_some]
  exact hn

end Direct

/-! ## Converters -/

-- Loaders of some types in which no helper stands for two things.
def LoadersOf (S : Schema) (options : Options) (hooks : Hooks) (types : List Ty)
    (loader : Ty → Loader) : Prop :=
  ∀ t ∈ types, (compileLoader S options hooks t).result = .ok (loader t) ∧
    Settings.HelpersDistinct ⟨S, .load, hooks, options⟩ t

def DumpersOf (S : Schema) (options : Options) (hooks : Hooks) (types : List Ty)
    (dumper : Ty → Dumper) : Prop :=
  ∀ t ∈ types, (compileDumper S options hooks t).result = .ok (dumper t) ∧
    Settings.HelpersDistinct ⟨S, .dump, hooks, options⟩ t

-- The converters of a union that has no hook, and of its variants, which may have some.
structure UnionConverters (S : Schema) (options options' : Options) (hooks : Hooks) (id : String)
    (variants : List Variant) (dumper : Ty → Dumper) (loader : Ty → Loader) : Prop where
  shape      : S.shape (.declared id) = .union variants
  noDumpHook : hooks.dump? (.declared id) = none
  noLoadHook : hooks.load? (.declared id) = none
  typed      : hooks.Typed
  dumpers    : DumpersOf S options hooks (.declared id :: variants.map Variant.ty) dumper
  loaders    : LoadersOf S options' hooks (.declared id :: variants.map Variant.ty) loader

-- One depth is enough for loaders of several types.
theorem LoadersOf.exists_depth {S : Schema} {options : Options} {hooks : Hooks} {types : List Ty}
    {loader : Ty → Loader} (h : LoadersOf S options hooks types loader) (x : Tree) :
    ∃ N, ∀ t ∈ types, ∀ n, N ≤ n → ((loader t).load S x).outcome.untrailed =
      (Direct.load S hooks options n t (some x)).outcome.untrailed := by
  refine exists_forall_le_of_forall fun t ht => ?_
  have ⟨hl, hd⟩ := h t ht
  have ⟨source, hs, _⟩ := compileLoader_linked hl
  have ⟨_, hc, hU, hi⟩ := compileLoader_loadsTargets hs hl (hd source hs)
  exact hU.load_eq_direct hc rfl hi (some x)

-- A dumper dumps values of its own type only.
theorem ty_of_dump {S : Schema} {options : Options} {hooks : Hooks} {t : Ty} {dumper : Dumper}
    (h : (compileDumper S options hooks t).result = .ok dumper) {v : Value} {x : Tree}
    (hx : (dumper.dump S v).outcome = .done x) : v.ty = t := by
  have ⟨_, _, _, _, hroot⟩ := compileDumper_linked h
  unfold Dumper.dump at hx
  split at hx
  case isTrue hv => exact hv.trans hroot
  case isFalse => nomatch hx

namespace UnionConverters

variable {S : Schema} {options options' : Options} {hooks : Hooks} {id : String}
  {variants : List Variant} {dumper : Ty → Dumper} {loader : Ty → Loader} {i : Nat}
  {variant : Variant} {x : Tree} {p : Value}
  (h : UnionConverters S options options' hooks id variants dumper loader)
include h

theorem dump_done (hi : variants[i]? = some variant)
    (hx : ((dumper variant.ty).dump S p).outcome = .done x) :
    ((dumper (.declared id)).dump S (.union id i p)).outcome = .done x := by
  have ⟨hunion, hud⟩ := h.dumpers _ List.mem_cons_self
  have ⟨hvariant, hvd⟩ := h.dumpers _ <| .tail _ <| List.mem_map_of_mem (List.mem_of_getElem? hi)
  have hp := (Direct.dumpsTo_iff hvariant hvd (ty_of_dump hvariant hx)).mp hx
  exact (Direct.dumpsTo_iff hunion hud rfl).mpr (hp.union h.shape h.noDumpHook hi)

theorem load_done {j : Nat} {w : Value}
    (hc : Chooses (fun v : Variant => (loader v.ty).load S x) w variants j) :
    ((loader (.declared id)).load S x).outcome = .done (.union id j w) := by
  have ⟨N, hN⟩ := h.loaders.exists_depth x
  have hdirect := hc.of_untrailed_eq fun v hv =>
    hN v.ty (.tail _ (List.mem_map_of_mem hv)) N (Nat.le_refl N)
  exact Outcome.done_of_untrailed_eq
    (hN (.declared id) List.mem_cons_self (N + 1) (Nat.le_succ N)).symm
    (Direct.load_union_of_chooses h.shape h.noLoadHook h.typed hdirect)

-- A union whose value comes back by the converters of its variant is dumped as that value, and
-- comes back as the same variant or as an earlier one. It is the same union exactly if the loaders
-- of the earlier variants refuse the tree.
theorem load_dumped (hi : variants[i]? = some variant)
    (hx : ((dumper variant.ty).dump S p).outcome = .done x) {q : Value}
    (hq : ((loader variant.ty).load S x).outcome = .done q) (hpq : p.Same q)
    (hends : ∀ k < i, ∀ v, variants[k]? = some v → ((loader v.ty).load S x).Finished) :
    ((dumper (.declared id)).dump S (.union id i p)).outcome = .done x ∧
    ∃ j ≤ i, ∃ r, ((loader (.declared id)).load S x).outcome = .done (.union id j r) ∧
      ((Value.union id i p).Same (.union id j r) ↔
        ∀ k < i, ∀ v, variants[k]? = some v → ¬((loader v.ty).load S x).Accepts) := by
  refine ⟨h.dump_done hi hx, ?_⟩
  have ⟨j, r, hj, hc⟩ : ∃ j r, j ≤ i ∧
      Chooses (fun v : Variant => (loader v.ty).load S x) r variants j :=
    exists_chooses hi ⟨q, hq⟩ hends
  refine ⟨j, hj, r, h.load_done hc, ?_⟩
  rw [Value.union_same_union]
  obtain ⟨v, hv, hr⟩ := hc.accepts
  constructor
  case mp =>
    rintro ⟨-, rfl, -⟩
    exact hc.refused
  case mpr =>
    intro hrefused
    obtain rfl : i = j := Nat.le_antisymm
      (Nat.le_of_not_lt fun hlt => hrefused j hlt v hv ⟨r, hr⟩) hj
    cases hi.symm.trans hv
    cases hq.symm.trans hr
    exact ⟨rfl, rfl, hpq⟩

end UnionConverters

namespace Letters

abbrev types : List Ty := Key :: variants.map Variant.ty

theorem helpersDistinct (d : Direction) :
    ∀ t ∈ types, Settings.HelpersDistinct ⟨letters, d, {}, {}⟩ t := by
  have hall : ∀ t ∈ types,
      ((compileProcedures letters {} {} d t).result.map fun source => source.builder.sealed.all
        fun p => ((p.uses ⟨letters, d, {}, {}⟩).map Prod.fst).Nodup).toOption = some true := by
    cases d <;> decide +kernel
  exact fun t ht => Settings.helpersDistinct_of_nodup (hall t ht)

theorem exists_converters :
    ∃ dumper loader, UnionConverters letters {} {} {} "Tree" variants dumper loader := by
  have ⟨dumper, hd⟩ : ∃ dumper : Ty → Dumper, ∀ t ∈ types,
      (compileDumper letters {} {} t).result = .ok (dumper t) :=
    Compiled.exists_fun (by decide +kernel)
  have ⟨loader, hl⟩ : ∃ loader : Ty → Loader, ∀ t ∈ types,
      (compileLoader letters {} {} t).result = .ok (loader t) :=
    Compiled.exists_fun (by decide +kernel)
  exact ⟨dumper, loader, rfl, rfl, rfl, nofun,
    fun t ht => ⟨hd t ht, helpersDistinct .dump t ht⟩,
    fun t ht => ⟨hl t ht, helpersDistinct .load t ht⟩⟩

end Letters

-- No letter is written as a number of two digits.
theorem UnionConverters.load_dumped_letters :
    ∃ dumper loader, UnionConverters letters {} {} {} "Tree" Letters.variants dumper loader ∧
      ((dumper Letters.Key).dump letters (.union "Tree" 1 (.int .i64 55))).outcome =
        .done (.number (.int 55)) ∧
      ∃ j ≤ 1, ∃ r, ((loader Letters.Key).load letters (.number (.int 55))).outcome =
          .done (.union "Tree" j r) ∧
        ((Value.union "Tree" 1 (.int .i64 55)).Same (.union "Tree" j r) ↔
          ∀ k < 1, ∀ v, Letters.variants[k]? = some v →
            ¬((loader v.ty).load letters (.number (.int 55))).Accepts) := by
  have ⟨dumper, loader, h⟩ := Letters.exists_converters
  have hdump := Compiled.eq_of_map (h.dumpers (.scalar (.int .i64)) (by decide)).left
    (f := fun d => (d.dump letters (.int .i64 55)).outcome) (b := .done (.number (.int 55)))
    (by decide +kernel)
  have hload := Compiled.eq_of_map (h.loaders (.scalar (.int .i64)) (by decide)).left
    (f := fun l => (l.load letters (.number (.int 55))).outcome) (b := .done (.int .i64 55))
    (by decide +kernel)
  have hletter := Compiled.eq_of_map (h.loaders (.scalar .char) (by decide)).left
    (f := fun l => (l.load letters (.number (.int 55))).outcome.failure?.isSome) (b := true)
    (by decide +kernel)
  refine ⟨dumper, loader, h, UnionConverters.load_dumped h rfl hdump hload (.refl _) ?_⟩
  intro k hk v hv hunfinished
  obtain rfl := Nat.lt_one_iff.mp hk
  cases hv
  rw [hunfinished] at hletter
  nomatch hletter

-- A choice of two options whose types have one name, so that one helper stands for both.
def choice : Schema where
  declarations := homonyms.declarations.take 2 ++ [
    ("A", {
      names := .qualified "app" "A"
      definition := .union [
        { name := "X", ty := .optional (.declared "Item") },
        { name := "Y", ty := .optional (.declared "ItemB") }] })]

namespace choice

def item : Value := .some (.record "Item" [.int .i32 1])

def tree : Tree := .object [("a", .number (.int 1))]

end choice

-- The item comes back by the converters of its variant. The union is not loaded at all.
theorem load_dumped_fails_choice :
    ∃ dumpItem loadItem loader,
      (compileDumper choice {} {} (.optional (.declared "Item"))).result = .ok dumpItem ∧
      (compileLoader choice {} {} (.optional (.declared "Item"))).result = .ok loadItem ∧
      (compileLoader choice {} {} (.declared "A")).result = .ok loader ∧
      (dumpItem.dump choice choice.item).outcome = .done choice.tree ∧
      (loadItem.load choice choice.tree).outcome = .done choice.item ∧
      ∃ e, (loader.load choice choice.tree).outcome = .failed e ∧ e.path = [] := by
  have ⟨dumpItem, hd, hdump⟩ : ∃ d,
      (compileDumper choice {} {} (.optional (.declared "Item"))).result = .ok d ∧
      (d.dump choice choice.item).outcome = .done choice.tree :=
    Compiled.exists_of_map (by decide +kernel)
  have ⟨loadItem, hi, hitem⟩ : ∃ l,
      (compileLoader choice {} {} (.optional (.declared "Item"))).result = .ok l ∧
      (l.load choice choice.tree).outcome = .done choice.item :=
    Compiled.exists_of_map (by decide +kernel)
  have ⟨loader, hl, hload⟩ : ∃ l, (compileLoader choice {} {} (.declared "A")).result = .ok l ∧
      (l.load choice choice.tree).outcome.failure?.map Prod.snd = some [] :=
    Compiled.exists_of_map (by decide +kernel)
  have ⟨_, hfailure, hpath⟩ := Option.map_eq_some_iff.mp hload
  have ⟨e, he, _, hp⟩ := Outcome.exists_failed_of_failure? hfailure
  exact ⟨dumpItem, loadItem, loader, hd, hi, hl, hdump, hitem, e, he, hp.trans hpath⟩

end TreeCodec
