import TreeCodec.Derive.Declaration
import TreeCodec.Derive.Grammar
import TreeCodec.Proofs.DumpedEntries

/-!
Where the fields of a record go when it is dumped.

Every field is put under its key. Nothing keeps the keys of the fields of a derived record apart: an
item is accepted whatever its fields are renamed to, and of fields with one key the last one is left.
-/
namespace TreeCodec

-- The fields of a record with the values that they hold, each dumped under its key.
inductive FieldRows (R : Ty → Value → Tree → Prop) :
    List Field → List Value → List (String × Tree) → Prop
  | nil {vs : List Value} : FieldRows R [] vs []
  | cons {f : Field} {fs : List Field} {v : Value} {vs : List Value} {t : Tree}
      {ds : List (String × Tree)} :
    R f.ty v t → FieldRows R fs vs ds → FieldRows R (f :: fs) (v :: vs) ((f.key, t) :: ds)

namespace FieldRows

variable {R R' : Ty → Value → Tree → Prop} {fs : List Field} {vs : List Value}
  {ds : List (String × Tree)}

theorem imp (hr : ∀ t v tree, R t v tree → R' t v tree) (h : FieldRows R fs vs ds) :
    FieldRows R' fs vs ds := by
  induction h with
  | nil => exact .nil
  | cons h _ ih => exact .cons (hr _ _ _ h) ih

theorem keys_eq (h : FieldRows R fs vs ds) : Keyed.keys ds = fs.map Field.key := by
  induction h with
  | nil => rfl
  | cons _ _ ih => exact congrArg (_ :: ·) ih

end FieldRows

theorem Dump.gives_part {found : Except SchemaError (Option Value)} {P : Value → Prop} :
    (part found).Gives P ↔ ∃ v, found = .ok (some v) ∧ P v := by
  rw [part, Run.gives_bind, Run.gives_ofExcept]
  constructor
  case mp =>
    rintro ⟨_ | v, hv, h⟩
    · simp [Run.Gives, Run.fault, Run.fail] at h
    · exact ⟨v, hv, Run.gives_pure.mp h⟩
  case mpr =>
    rintro ⟨v, hv, h⟩
    exact ⟨some v, hv, Run.gives_pure.mpr h⟩

namespace Direct

variable {S : Schema} {hooks : Hooks} {options : Options} {id : String} {vs : List Value}

-- Without omission every field is put under its key, one after the other.
theorem dumpMapping_done (ho : options.omitNull = false) {rule : Ty → Dump.Rule} {tree : Tree}
    {fs : List Field} {i : Nat} {entries : List (String × Tree)}
    (h : (dumpMapping S options (.declared id) (.record id vs) i entries
      (fs.map fun f => (f, rule f.ty))).outcome = .done tree) :
    ∃ ds, FieldRows (fun t v tree => (rule t v).outcome = .done tree) fs (vs.drop i) ds ∧
      tree = .object (ds.foldl (fun out (k, t) => Keyed.put k t out) entries) := by
  induction fs generalizing i entries with
  | nil =>
    cases h
    exact ⟨[], .nil, rfl⟩
  | cons f fs ih =>
    rw [List.map_cons, dumpMapping, ← Run.gives_eq_iff, Run.gives_bind, Run.gives_within, dumpPart,
      Run.gives_bind, Dump.gives_part] at h
    obtain ⟨v, hv, t, ht, hrest⟩ := h
    obtain ⟨_, _, _, hrecord, hv⟩ := Schema.getField_eq_ok_iff.mp hv
    cases hrecord
    simp only [ho, Bool.false_and, Bool.false_eq_true, if_false, Run.gives_eq_iff] at hrest
    obtain ⟨ds, hds, htree⟩ := ih hrest
    have hdrop : vs.drop i = v :: vs.drop (i + 1) := by
      rw [List.drop_eq_getElem?_toList_append, hv]
      rfl
    exact ⟨(f.key, t) :: ds, hdrop ▸ .cons ht hds, htree⟩

theorem dump_record {fs : List Field} {positional : Bool}
    (hs : S.shape (.declared id) = .record fs positional)
    (hh : hooks.dump? (.declared id) = none) (n : Nat) :
    dump S hooks options (n + 1) (.declared id) =
      let fields := fs.map fun f => (f, dump S hooks options n f.ty)
      if positional then dumpSequence S (.declared id) fields
      else fun v => dumpMapping S options (.declared id) v 0 [] fields := by
  rw [dump, dumpType, dumpHooked_of_none hh, dumpWithin, dumpDeclared, hs]
  rfl

theorem DumpsTo.record {fs : List Field} {tree : Tree}
    (hs : S.shape (.declared id) = .record fs false) (hh : hooks.dump? (.declared id) = none)
    (ho : options.omitNull = false)
    (h : DumpsTo S hooks options (.declared id) (.record id vs) tree) :
    ∃ ds, FieldRows (DumpsTo S hooks options) fs vs ds ∧ tree = .object (Keyed.ofList ds) := by
  obtain ⟨n, hn⟩ := h
  cases n with
  | zero =>
    rw [dump, dumpType, dumpHooked_of_none hh] at hn
    cases hn
  | succ n =>
    rw [dump_record hs hh] at hn
    obtain ⟨ds, hds, htree⟩ := dumpMapping_done ho hn
    exact ⟨ds, hds.imp fun _ _ _ h => ⟨n, h⟩, htree⟩

end Direct

/-! ## Derived records -/

namespace Derive

-- The members of the record that an item is accepted as, unless the record is positional.
def Item.members? (item : Item) : Option (List Member) :=
  match item.declaration with
  | .ok d =>
    match d.shape with
    | .record members => if d.settings.positional then none else some members
    | .union _ => none
  | .error _ => none

-- What the schema of a record tells of a member, but for its type and its default.
def Member.described (m : Member) : String × String × Option Nat :=
  (Token.plainName m.name, m.key, m.parameter)

end Derive

def Field.described (f : Field) : String × String × Option Nat :=
  (f.name, f.key, f.param)

-- A record of a schema is the one that is derived from an item.
structure Schema.DerivedFrom (S : Schema) (id : String) (item : Derive.Item)
    (members : List Derive.Member) (fields : List Field) : Prop where
  accepted : item.members? = some members
  shape    : S.shape (.declared id) = .record fields false
  fields   : fields.map Field.described = members.map Derive.Member.described

section Derived

variable {S : Schema} {id : String} {item : Derive.Item} {members : List Derive.Member}
  {fields : List Field}

theorem Schema.DerivedFrom.keys_eq (h : S.DerivedFrom id item members fields) :
    fields.map Field.key = members.map Derive.Member.key := by
  have hkeys := congrArg (List.map fun d : String × String × Option Nat => d.2.1) h.fields
  rwa [List.map_map, List.map_map] at hkeys

-- A record that is dumped keeps all its fields, each under its own key, exactly if no two members of
-- the item have one key. Of fields with one key the last one is left.
theorem record_dump_lossless_iff (hi : S.DerivedFrom id item members fields) {options : Options}
    {hooks : Hooks} (ho : options.omitNull = false) {dumper : Dumper}
    (h : (compileDumper S options hooks (.declared id)).result = .ok dumper)
    (hd : Settings.HelpersDistinct ⟨S, .dump, hooks, options⟩ (.declared id))
    (hh : hooks.dump? (.declared id) = none) {vs : List Value} {tree : Tree}
    (htree : (dumper.dump S (.record id vs)).outcome = .done tree) :
    ∃ ds out, FieldRows (Direct.DumpsTo S hooks options) fields vs ds ∧ tree = .object out ∧
      Keyed.keys ds = members.map Derive.Member.key ∧ Keyed.Collected ds out ∧
      ((out.length = members.length ∧ ∀ d ∈ ds, Keyed.get? d.1 out = some d.2) ↔
        (members.map Derive.Member.key).Nodup) := by
  have ⟨ds, hds, htree⟩ := ((Direct.dumpsTo_iff h hd rfl).mp htree).record hi.shape hh ho
  have hkeys := hds.keys_eq.trans hi.keys_eq
  have hlen : ds.length = members.length := by
    simpa [Keyed.keys] using congrArg List.length hkeys
  have hout := Keyed.collected_ofList ds
  exact ⟨ds, _, hds, htree, hkeys, hout, hlen ▸ hkeys ▸ hout.lossless_iff⟩

end Derived

-- A record of two fields. The first one is written as `k`.
namespace Renamed

def fields (key : String) : List Field := [
  { name := "x", key := "k", ty := .scalar (.int .i32) },
  { name := "y", key := key, ty := .scalar .string }]

def schema (key : String) : Schema where
  declarations := [
    ("A", { names := .qualified "app" "A", definition := .record (fields key) false })]

def values : List Value := [.int .i32 1, .text "1"]

-- The item, with what stands in front of the second field.
def text (setting : String) : String :=
  "struct A \x7b #[schema(rename = \"k\")] x: i32, " ++ setting ++ "y: String \x7d"

theorem exists_derived (setting key : String)
    (h : ((Derive.Item.ofText (text setting)).map fun item =>
      item.members?.map (·.map Derive.Member.described)).toOption =
        some (some ((fields key).map Field.described))) :
    ∃ item members, Derive.Item.ofText (text setting) = .ok item ∧
      (schema key).DerivedFrom "A" item members (fields key) := by
  cases hitem : Derive.Item.ofText (text setting) with
  | error e =>
    rw [hitem] at h
    nomatch h
  | ok item =>
    rw [hitem] at h
    have ⟨members, hmembers, hfields⟩ := Option.map_eq_some_iff.mp <| Option.some.inj h
    exact ⟨item, members, rfl, hmembers, rfl, hfields.symm⟩

end Renamed

theorem record_dump_lossless_iff_renamed :
    ∃ item members dumper tree,
      Derive.Item.ofText (Renamed.text "") = .ok item ∧
      (Renamed.schema "y").DerivedFrom "A" item members (Renamed.fields "y") ∧
      (compileDumper (Renamed.schema "y") {} {} (.declared "A")).result = .ok dumper ∧
      Settings.HelpersDistinct ⟨Renamed.schema "y", .dump, {}, {}⟩ (.declared "A") ∧
      (dumper.dump (Renamed.schema "y") (.record "A" Renamed.values)).outcome = .done tree ∧
      ∃ ds out, FieldRows (Direct.DumpsTo (Renamed.schema "y") {} {}) (Renamed.fields "y")
          Renamed.values ds ∧ tree = .object out ∧
        Keyed.keys ds = members.map Derive.Member.key ∧ Keyed.Collected ds out ∧
        ((out.length = members.length ∧ ∀ d ∈ ds, Keyed.get? d.1 out = some d.2) ↔
          (members.map Derive.Member.key).Nodup) := by
  have ⟨item, members, hitem, hi⟩ := Renamed.exists_derived "" "y" (by decide +kernel)
  have ⟨dumper, h, hdump⟩ : ∃ dumper,
      (compileDumper (Renamed.schema "y") {} {} (.declared "A")).result = .ok dumper ∧
      (dumper.dump (Renamed.schema "y") (.record "A" Renamed.values)).outcome =
        .done (.object [("k", .number (.int 1)), ("y", .text "1")]) :=
    Compiled.exists_of_map (by decide +kernel)
  have hd : Settings.HelpersDistinct ⟨Renamed.schema "y", .dump, {}, {}⟩ (.declared "A") :=
    Settings.helpersDistinct_of_nodup (by decide +kernel)
  exact ⟨item, members, dumper, _, hitem, hi, h, hd, hdump,
    record_dump_lossless_iff hi rfl h hd rfl hdump⟩

-- Both fields are renamed to `k`, and the item is accepted.
theorem record_dump_loses_renamed :
    ∃ item members loader dumper,
      Derive.Item.ofText (Renamed.text "#[schema(rename = \"k\")] ") = .ok item ∧
      (Renamed.schema "k").DerivedFrom "A" item members (Renamed.fields "k") ∧
      (compileLoader (Renamed.schema "k") {} {} (.declared "A")).result = .ok loader ∧
      (compileDumper (Renamed.schema "k") {} {} (.declared "A")).result = .ok dumper ∧
      Settings.HelpersDistinct ⟨Renamed.schema "k", .dump, {}, {}⟩ (.declared "A") ∧
      (loader.load (Renamed.schema "k") (.object [("k", .number (.int 1))])).outcome =
        .done (.record "A" Renamed.values) ∧
      (dumper.dump (Renamed.schema "k") (.record "A" Renamed.values)).outcome =
        .done (.object [("k", .text "1")]) ∧
      members.length = 2 := by
  have ⟨item, members, hitem, hi⟩ :=
    Renamed.exists_derived "#[schema(rename = \"k\")] " "k" (by decide +kernel)
  have ⟨loader, hl, hload⟩ : ∃ loader,
      (compileLoader (Renamed.schema "k") {} {} (.declared "A")).result = .ok loader ∧
      (loader.load (Renamed.schema "k") (.object [("k", .number (.int 1))])).outcome =
        .done (.record "A" Renamed.values) :=
    Compiled.exists_of_map (by decide +kernel)
  have ⟨dumper, hd, hdump⟩ : ∃ dumper,
      (compileDumper (Renamed.schema "k") {} {} (.declared "A")).result = .ok dumper ∧
      (dumper.dump (Renamed.schema "k") (.record "A" Renamed.values)).outcome =
        .done (.object [("k", .text "1")]) :=
    Compiled.exists_of_map (by decide +kernel)
  have hmembers : members.length = 2 := by
    simpa [Renamed.fields] using (congrArg List.length hi.fields).symm
  exact ⟨item, members, loader, dumper, hitem, hi, hl, hd,
    Settings.helpersDistinct_of_nodup (by decide +kernel), hload, hdump, hmembers⟩

end TreeCodec
