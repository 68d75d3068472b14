import TreeCodec.Proofs.Collected
import TreeCodec.Proofs.DumpOutcome
import TreeCodec.Proofs.Dumped
import TreeCodec.Proofs.Gives
import TreeCodec.Proofs.LoadAgreement

/-!
Where the entries of a map go when it is dumped.

Every entry is dumped under the text of its dumped key. Keys that differ may have one text, as a
number and the character that spells it do in a union; then only one of their entries is left.
-/
namespace TreeCodec

namespace Dump

variable {S : Schema} {dumpKey dumpValue : Rule} {kind : MapKind} {s t : Ty}
  {es : List (Value × Value)} {tree : Tree}

@[simp]
theorem gives_keyText {t : Tree} {P : String → Prop} :
    (keyText t).Gives P ↔ ∃ name, t.keyText = .ok name ∧ P name := by
  unfold keyText
  cases t.keyText <;> simp [Run.Gives, Run.fault, Run.fail]

-- The name and the tree that the parts of an entry give.
structure Entry (dumpKey dumpValue : Rule) (e : Value × Value) (d : String × Tree) : Prop where
  key  : (dumpKey e.1).Gives fun k => k.keyText = .ok d.1
  tree : (dumpValue e.2).outcome = .done d.2

theorem entry_iff {e : Value × Value} {d : String × Tree} :
    Entry dumpKey dumpValue e d ↔
      (do
        let key ← dumpKey e.1
        let name ← keyText key
        let t ← (dumpValue e.2).within (.key name)
        return (name, t) : Run (String × Tree)).outcome = .done d := by
  rw [← Run.gives_eq_iff]
  simp only [Run.gives_bind, Run.gives_within, Run.gives_pure, gives_keyText]
  constructor
  case mp =>
    rintro ⟨⟨k, hk, hname⟩, hw⟩
    exact ⟨k, hk, _, hname, _, hw, rfl⟩
  case mpr =>
    rintro ⟨k, hk, name, hname, w, hw, rfl⟩
    exact ⟨⟨k, hk, hname⟩, hw⟩

-- A map is dumped if all its entries are. They are put under their names.
theorem map_done_iff :
    (map S (.map kind s t) kind dumpKey dumpValue (.map kind s t es)).outcome = .done tree ↔
      ∃ ds, List.Forall₂ (Entry dumpKey dumpValue) es ds ∧
        tree = .object (Keyed.ofList (written kind Prod.fst ds)) := by
  have he : S.mapEntries (.map kind s t) (.map kind s t es) = .ok es :=
    Schema.mapEntries_eq_ok_iff.mpr ⟨rfl, kind, s, t, rfl⟩
  have hentry : Entry dumpKey dumpValue = fun e d => _ :=
    funext₂ fun _ _ => propext entry_iff
  rw [← Run.gives_eq_iff, map, he, Run.ofExcept_ok, Run.pure_bind, Run.gives_bind, hentry]
  refine exists_congr fun ds => and_congr (Run.forEach_done_iff 0) ?_
  cases kind <;> exact Run.gives_pure.trans eq_comm

end Dump

namespace Direct

variable (S : Schema) (hooks : Hooks) (options : Options)

-- Direct dumping that may nest enough declared types gives a tree for a value.
def DumpsTo (t : Ty) (v : Value) (tree : Tree) : Prop :=
  ∃ n, (dump S hooks options n t v).outcome = .done tree

-- An entry of a map is dumped under the text of its dumped key.
structure DumpsEntry (s t : Ty) (e : Value × Value) (d : String × Tree) : Prop where
  key  : ∃ k, DumpsTo S hooks options s e.1 k ∧ k.keyText = .ok d.1
  tree : DumpsTo S hooks options t e.2 d.2

variable {S hooks options} {kind : MapKind} {s t : Ty}

theorem dumpHooked_of_none {t : Ty} (h : hooks.dump? t = none) (rule : Dump.Rule) :
    dumpHooked hooks t rule = rule := by
  rw [dumpHooked, h]

theorem dumpsTo_iff {root : Ty} {dumper : Dumper}
    (h : (compileDumper S options hooks root).result = .ok dumper)
    (hd : Settings.HelpersDistinct ⟨S, .dump, hooks, options⟩ root) {v : Value} (hv : v.ty = root)
    {tree : Tree} :
    (dumper.dump S v).outcome = .done tree ↔ DumpsTo S hooks options root v tree := by
  have hdeep := fun n (hn : v.size ≤ n) => (outcome_eq_direct h hd hv hn).right
  constructor
  case mp =>
    intro htree
    have heq := hdeep _ (Nat.le_refl _)
    rw [htree] at heq
    exact ⟨_, Outcome.untrailed_eq_done_iff.mp heq.symm⟩
  case mpr =>
    rintro ⟨n, hn⟩
    have heq := hdeep (max n v.size) (Nat.le_max_right ..)
    have hfinished : (dump S hooks options n root v).Finished := fun hu => nomatch hn.symm.trans hu
    rw [← (dump_mono (Nat.le_max_left ..) root v).outcome_eq hfinished, hn] at heq
    exact Outcome.untrailed_eq_done_iff.mp heq

theorem dump_map (hh : hooks.dump? (.map kind s t) = none) (n : Nat) :
    dump S hooks options n (.map kind s t) =
      Dump.map S (.map kind s t) kind (dump S hooks options n s) (dump S hooks options n t) :=
  dumpHooked_of_none hh _

theorem DumpsTo.map {es : List (Value × Value)} {tree : Tree}
    (hh : hooks.dump? (.map kind s t) = none)
    (h : DumpsTo S hooks options (.map kind s t) (.map kind s t es) tree) :
    ∃ ds, List.Forall₂ (DumpsEntry S hooks options s t) es ds ∧
      tree = .object (Keyed.ofList (Dump.written kind Prod.fst ds)) := by
  have ⟨n, hn⟩ := h
  rw [dump_map hh, Dump.map_done_iff] at hn
  have ⟨ds, hds, htree⟩ := hn
  refine ⟨ds, hds.imp fun e d hd => ?_, htree⟩
  have ⟨k, hk, hname⟩ := hd.key
  exact ⟨⟨k, ⟨n, hk⟩, hname⟩, n, hd.tree⟩

end Direct

-- Keys that are characters or numbers.
def Letters.variants : List Variant := [
  { name := "Letter", ty := .scalar .char },
  { name := "Count", ty := .scalar (.int .i64) }]

def letters : Schema where
  declarations := [
    ("Tree", { names := .qualified "app" "Tree", definition := .union Letters.variants })]

namespace Letters

abbrev Key : Ty := .declared "Tree"

abbrev Map : Ty := .map .unordered Key (.scalar (.int .i32))

-- The keys are the character `5` and a number.
def entries (count : Int) : List (Value × Value) := [
  (.union "Tree" 0 (.char '5'), .int .i32 1),
  (.union "Tree" 1 (.int .i64 count), .int .i32 1)]

abbrev map (count : Int) : Value := .map .unordered Key (.scalar (.int .i32)) (entries count)

theorem exists_dumper :
    ∃ dumper, (compileDumper letters {} {} Map).result = .ok dumper ∧
      Settings.HelpersDistinct ⟨letters, .dump, {}, {}⟩ Map :=
  have ⟨dumper, h⟩ := Compiled.exists_ok (x := compileDumper letters {} {} Map) (by decide +kernel)
  ⟨dumper, h, Settings.helpersDistinct_of_nodup (by decide +kernel)⟩

end Letters

end TreeCodec
