import TreeCodec.Proofs.ByteOrder
import TreeCodec.Proofs.DumpedEntries
import TreeCodec.Proofs.LinkExact
import TreeCodec.Proofs.OperandRule
import TreeCodec.Proofs.TargetSlot

/-!
Unordered maps are dumped in the order of the texts of their keys, whatever the order of their
entries.
-/
namespace TreeCodec

/-! ## Rules -/

namespace Dump

variable {S : Schema} {dumpKey dumpValue : Rule} {s t : Ty} {es es' : List (Value × Value)}
  {ds ds' : List (String × Tree)}

theorem written_pairwise (ds : List (String × Tree)) :
    (written .unordered Prod.fst ds).Pairwise fun d d' => d.1 ≤ d'.1 := by
  let le (d d' : String × Tree) : Bool := decide (d.1 ≤ d'.1)
  have htrans (d₁ d₂ d₃ : String × Tree) (h : le d₁ d₂) (h' : le d₂ d₃) : le d₁ d₃ :=
    decide_eq_true <| String.le_trans (of_decide_eq_true h) (of_decide_eq_true h')
  have htotal (d d' : String × Tree) : le d d' || le d' d := by
    simpa [le] using String.le_total d.1 d'.1
  exact (List.pairwise_mergeSort htrans htotal ds).imp of_decide_eq_true

theorem nodup_keys_written (hn : (Keyed.keys ds).Nodup) :
    (Keyed.keys (written .unordered Prod.fst ds)).Nodup :=
  ((written_perm .unordered Prod.fst ds).map Prod.fst).nodup_iff.mp hn

-- Where texts differ, the bytes go up.
theorem keys_written_ascending (hn : (Keyed.keys ds).Nodup) :
    (Keyed.keys (written .unordered Prod.fst ds)).Pairwise fun a b => Text.bytes a < Text.bytes b :=
  (List.pairwise_map.mpr (written_pairwise ds)).imp₂
    (fun _ _ hle hne => Text.lt_iff_bytes_lt.mp <| lt_of_le_of_ne hle hne) (nodup_keys_written hn)

-- Entries whose texts differ are written in one order only.
theorem written_eq_of_perm (hp : ds.Perm ds') (hn : (Keyed.keys ds).Nodup) :
    written .unordered Prod.fst ds = written .unordered Prod.fst ds' := by
  have hperm := (written_perm .unordered Prod.fst ds).symm.trans <|
    hp.trans (written_perm .unordered Prod.fst ds')
  refine hperm.eq_of_pairwise (fun d d' hd hd' hle hge => ?_) (written_pairwise ds)
    (written_pairwise ds')
  have hd := (written_perm .unordered Prod.fst ds).mem_iff.mpr hd
  have hd' := hp.mem_iff.mpr <| (written_perm .unordered Prod.fst ds').mem_iff.mpr hd'
  exact List.inj_on_of_nodup_map hn hd hd' <| String.le_antisymm hle hge

-- What a map is dumped as does not depend on the order of its entries if their texts differ.
theorem map_done_of_perm (hp : es.Perm es')
    (hds : List.Forall₂ (Entry dumpKey dumpValue) es ds) (hn : (Keyed.keys ds).Nodup) :
    (map S (.map .unordered s t) .unordered dumpKey dumpValue
      (.map .unordered s t es')).outcome =
        .done (.object (written .unordered Prod.fst ds)) := by
  have ⟨ds', hds', hp'⟩ := List.perm_comp_forall₂ hp.symm hds
  refine map_done_iff.mpr ⟨ds', hds', ?_⟩
  rw [← written_eq_of_perm hp'.symm hn, Keyed.ofList_eq_self (nodup_keys_written hn)]

end Dump

/-! ## Dumpers -/

-- A map is dumped by a rule for maps of its own type only.
theorem Dump.ty_eq_of_map_done {S : Schema} {ty : Ty} {kind : MapKind} {dumpKey dumpValue : Rule}
    {v : Value} {tree : Tree} (h : (map S ty kind dumpKey dumpValue v).outcome = .done tree) :
    v.ty = ty := by
  rw [← Run.gives_eq_iff, map, Run.gives_bind, Run.gives_ofExcept] at h
  obtain ⟨_, hes, _⟩ := h
  exact (Schema.mapEntries_eq_ok_iff.mp hes).left

section Dumpers

variable {S : Schema} {options : Options} {hooks : Hooks} {kind : MapKind} {s t : Ty} {d : Dumper}

-- A dumper ends with a tree if its entry does at all.
theorem dump_done_iff {root : Ty} (h : (compileDumper S options hooks root).result = .ok d)
    {q : DumpProcedure} (hq : d.unit.dumps[d.entry]? = some q) {v : Value} (hv : v.ty = root)
    {tree : Tree} :
    (d.dump S v).outcome = .done tree ↔
      ∃ n, (q.run S (d.unit.callDump S n) v).outcome = .done tree := by
  obtain ⟨_, _, _, _, hroot⟩ := compileDumper_linked h
  rw [Dumper.dump, if_pos (hv.trans hroot.symm)]
  constructor
  case mp =>
    intro hd
    refine ⟨d.unit.dumpBudget v, ?_⟩
    simpa only [CompiledUnit.dump, hq] using hd
  case mpr =>
    rintro ⟨n, hn⟩
    have hcall : (d.unit.callDump S (n + 1) d.entry v).outcome = .done tree := by
      simpa only [CompiledUnit.callDump, hq] using hn
    have hupto := d.unit.callDump_upto_dump S (n + 1) d.entry v
    rwa [← hupto.eq fun hu => by cases hcall.symm.trans hu]

-- The entry of a dumper of maps does what the rule for maps does, given rules for keys and values,
-- with the type that its helper is bound to.
theorem compileDumper_map (h : (compileDumper S options hooks (.map kind s t)).result = .ok d)
    (hh : hooks.dump? (.map kind s t) = none) :
    ∃ q ty kind', ∃ key value : DumpExpr.Rule, d.unit.dumps[d.entry]? = some q ∧
      (∃ u v, S.shape ty = .map kind' u v) ∧ ∀ callee v, q.run S callee v =
        (Dump.map S ty kind' (key callee) (value callee) v).through q.name := by
  obtain ⟨_, p, i, q, hfor, _, hq, hdump, hentry⟩ := compileDumper_place h .root
  obtain ⟨_, x, hx, hlinked⟩ := Linker.dumpProcedure_linked hdump
  have hx : x = "o" := by
    rw [hfor.signature] at hx
    exact (Option.some.inj hx).symm
  subst hx
  rw [hentry rfl] at hq
  have hhook : Settings.hook? ⟨S, .dump, hooks, options⟩ (.map kind s t) = none :=
    (Settings.dump?_eq_none_iff rfl).mp hh
  have hbody := hfor.body
  generalize p.body = body at hlinked hbody
  cases hbody with
  | loadMapping hd | loadSequence hd | loadTuple hd => cases hd
  | dumpMapping _ _ hs | dumpSequence _ _ hs | dumpTuple _ _ hs | union _ hs => cases hs
  | value _ he =>
    cases he with
    | hook hsome => cases hhook.symm.trans hsome
    | leaf _ hl => simp [Schema.IsLeaf, Schema.shape] at hl
    | call _ hp => exact absurd hp id
    | map _ hek hev =>
      obtain ⟨name, body⟩ := q
      cases hlinked with
      | value hle =>
        cases hle with
        | @map _ _ _ _ _ _ _ _ ty u v kind' dk dv hsource hview hk hv =>
          obtain ⟨key, hk⟩ := DumpExpr.exists_rule_of_binder (hek.exists_dumpRule S hk)
          obtain ⟨value, hv⟩ := DumpExpr.exists_rule_of_binder (hev.exists_dumpRule S hv)
          obtain ⟨_, hs⟩ := Linker.bound_of_viewOf? hview fun _ => Schema.shape_of_entry
          refine ⟨_, ty, kind', key, value, hq, ⟨u, v, hs⟩, fun callee w => ?_⟩
          cases hsource with
          | var hup =>
            cases (Scope.idxOf?_innermost "o" []).symm.trans hup
            simp only [DumpProcedure.run, DumpProcedure.evalBody, DumpExpr.eval, hk, hv]
            rfl

-- The text of the key of an entry, as it stands in the tree of a map that has no other entry.
def Dumper.KeyText (d : Dumper) (S : Schema) (s t : Ty) (e : Value × Value)
    (name : String) : Prop :=
  ∃ x, (d.dump S (.map .unordered s t [e])).outcome = .done (.object [(name, x)])

theorem Dumper.KeyText.unique : Relator.RightUnique (d.KeyText S s t) := by
  rintro e _ _ ⟨_, h⟩ ⟨_, h'⟩
  cases h.symm.trans h'
  rfl

-- An unordered map is dumped in the order of the bytes of the texts of its keys. So two maps with
-- the same entries are dumped as one tree, in whatever orders they have them, if the texts differ.
theorem dump_unordered (h : (compileDumper S options hooks (.map .unordered s t)).result = .ok d)
    (hh : hooks.dump? (.map .unordered s t) = none) {es es' : List (Value × Value)}
    (hp : es.Perm es') (hn : ∀ names, List.Forall₂ (d.KeyText S s t) es names → names.Nodup)
    {tree : Tree} (ho : (d.dump S (.map .unordered s t es)).outcome = .done tree) :
    (d.dump S (.map .unordered s t es')).outcome = .done tree ∧
      ∃ names out, List.Forall₂ (d.KeyText S s t) es names ∧ tree = .object out ∧
        names.Perm (Keyed.keys out) ∧
        (Keyed.keys out).Pairwise fun a b => Text.bytes a < Text.bytes b := by
  have ⟨q, ty, kind, key, value, hq, ⟨u, v, hs⟩, hrun⟩ := compileDumper_map h hh
  have hdump : ∀ es tree, (d.dump S (.map .unordered s t es)).outcome = .done tree ↔
      ∃ n, (Dump.map S ty kind (key (d.unit.callDump S n)) (value (d.unit.callDump S n))
        (.map .unordered s t es)).outcome = .done tree := by
    intro es tree
    rw [dump_done_iff h hq rfl]
    simp only [hrun, ← Run.gives_eq_iff, Run.gives_through]
  obtain ⟨n, hmap⟩ := (hdump es tree).mp ho
  cases Dump.ty_eq_of_map_done hmap
  cases hs
  obtain ⟨ds, hds, rfl⟩ := Dump.map_done_iff.mp hmap
  -- Each entry has the same text in a map of its own.
  have htexts : List.Forall₂ (d.KeyText S s t) es (Keyed.keys ds) := by
    refine List.forall₂_map_right_iff.mpr <| hds.imp fun e d he => ⟨d.2, ?_⟩
    have hone := Dump.map_done_of_perm (S := S) (s := s) (t := t) (.refl [e]) (.cons he .nil)
      (List.nodup_singleton _)
    rw [Dump.written, List.mergeSort_singleton] at hone
    exact (hdump _ _).mpr ⟨n, hone⟩
  have hnodup := hn _ htexts
  rw [Keyed.ofList_eq_self (Dump.nodup_keys_written hnodup)]
  refine ⟨(hdump _ _).mpr ⟨n, Dump.map_done_of_perm hp hds hnodup⟩, Keyed.keys ds, _, htexts, rfl,
    ?_, Dump.keys_written_ascending hnodup⟩
  exact (Dump.written_perm .unordered Prod.fst ds).map Prod.fst

end Dumpers

namespace Letters

-- Two characters, one of them of two bytes, and a number between them.
def mixed : List (Value × Value) := [
  (.union "Tree" 0 (.char 'é'), .int .i32 1),
  (.union "Tree" 1 (.int .i64 10), .int .i32 2),
  (.union "Tree" 0 (.char 'z'), .int .i32 3)]

def mixedTexts : List (String × Tree) := [
  ("é", .number (.int 1)),
  ("10", .number (.int 2)),
  ("z", .number (.int 3))]

-- What the parts of an entry of such a map are dumped as.
abbrev Entry : Value × Value → String × Tree → Prop :=
  Dump.Entry (Direct.dump letters {} {} 1 Key) (Direct.dump letters {} {} 1 (.scalar (.int .i32)))

theorem mixed_entries : List.Forall₂ Entry mixed mixedTexts :=
  .cons ⟨⟨.text "é", by decide +kernel, rfl⟩, by decide +kernel⟩ <|
    .cons ⟨⟨.number (.int 10), by decide +kernel, rfl⟩, by decide +kernel⟩ <|
    .cons ⟨⟨.text "z", by decide +kernel, rfl⟩, by decide +kernel⟩ .nil

theorem dumpsTo_of_entries {es : List (Value × Value)} {ds : List (String × Tree)}
    (h : List.Forall₂ Entry es ds) :
    Direct.DumpsTo letters {} {} Map (.map .unordered Key (.scalar (.int .i32)) es)
      (.object (Keyed.ofList (Dump.written .unordered Prod.fst ds))) := by
  refine ⟨1, ?_⟩
  rw [Direct.dump_map rfl, Dump.map_done_iff]
  exact ⟨ds, h, rfl⟩

theorem dump_unordered_mixed :
    ∃ d tree, (compileDumper letters {} {} Map).result = .ok d ∧ mixed.Perm mixed.reverse ∧
      (∀ names, List.Forall₂ (d.KeyText letters Key (.scalar (.int .i32))) mixed names →
        names.Nodup) ∧
      (d.dump letters (.map .unordered Key (.scalar (.int .i32)) mixed)).outcome = .done tree ∧
      (d.dump letters (.map .unordered Key (.scalar (.int .i32)) mixed.reverse)).outcome =
        .done tree ∧
      ∃ names out, List.Forall₂ (d.KeyText letters Key (.scalar (.int .i32))) mixed names ∧
        tree = .object out ∧ names.Perm (Keyed.keys out) ∧
        (Keyed.keys out).Pairwise fun a b => Text.bytes a < Text.bytes b := by
  have ⟨d, h, hd⟩ := exists_dumper
  have hdump {es : List (Value × Value)} {ds : List (String × Tree)}
      (hds : List.Forall₂ Entry es ds) := (Direct.dumpsTo_iff h hd rfl).mpr (dumpsTo_of_entries hds)
  have htexts : List.Forall₂ (d.KeyText letters Key (.scalar (.int .i32))) mixed
      (Keyed.keys mixedTexts) := by
    refine List.forall₂_map_right_iff.mpr <| mixed_entries.imp fun e x he => ⟨x.2, ?_⟩
    have hone := hdump (.cons he .nil)
    rwa [Dump.written, List.mergeSort_singleton] at hone
  have hn : ∀ names, List.Forall₂ (d.KeyText letters Key (.scalar (.int .i32))) mixed names →
      names.Nodup := by
    intro names hnames
    rw [Relator.RightUnique.forall₂ Dumper.KeyText.unique hnames htexts]
    decide
  have hp := mixed.reverse_perm.symm
  exact ⟨d, _, h, hp, hn, hdump mixed_entries, dump_unordered h rfl hp hn (hdump mixed_entries)⟩

end Letters
end TreeCodec
