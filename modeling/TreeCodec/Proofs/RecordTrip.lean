import TreeCodec.Proofs.Target
import TreeCodec.Proofs.Trip

/-!
Records and tuples that are dumped and loaded again, given the trips of their parts.
-/
namespace TreeCodec

-- A part that was found is loaded whether it has a default or not.
theorem Direct.loadPart_found {rule : Load.Rule} {default : Option Value} {x : Tree} :
    loadPart rule default (pure (some x)) = rule (some x) := by
  cases default <;> rfl

theorem checkSequence_array {min len : Nat} {items : List Tree} (hmin : min ≤ items.length)
    (hlen : items.length ≤ len) : Load.checkSequence min len (some (.array items)) = pure () := by
  simp only [Load.checkSequence, Load.required, Run.pure_bind, if_neg (Nat.not_lt.mpr hmin),
    if_neg (Nat.not_lt.mpr hlen)]

theorem checkKeys_object {known : List String} {entries : List (String × Tree)}
    (h : Keyed.keys entries ⊆ known) :
    Load.checkKeys known (some (.object entries)) = pure () := by
  have hknown : (Keyed.keys entries).find? (fun k => !known.contains k) = none := by
    rw [List.find?_eq_none]
    intro k hk
    simpa using h hk
  simp only [Load.checkKeys, hknown]

section Record

variable {S : Schema} {dump : Ty → Dump.Rule} {load : Ty → Load.Rule} {id : String}
  {fields : List Field} {rows : List (Field × Trip)}

-- The trips of the fields of a record.
structure FieldTrips (S : Schema) (dump : Ty → Dump.Rule) (load : Ty → Load.Rule)
    (fields : List Field) (rows : List (Field × Trip)) : Prop where
  fields_eq : rows.map Prod.fst = fields
  closes    : ∀ r ∈ rows, r.2.Closes S (dump r.1.ty) (load r.1.ty)
  ty_eq     : ∀ r ∈ rows, r.2.value.ty = r.1.ty

namespace FieldTrips

theorem backs_ty (h : FieldTrips S dump load fields rows) :
    (rows.map fun r => r.2.back).map Value.ty = fields.map Field.ty := by
  rw [← h.fields_eq, List.map_map, List.map_map]
  exact List.map_congr_left fun r hr => (h.closes r hr).back_ty.trans (h.ty_eq r hr)

theorem map_rules (h : FieldTrips S dump load fields rows) {α : Type} (rule : Ty → α) :
    fields.map (fun f => (f, rule f.ty)) = rows.map fun r => (r.1, rule r.1.ty) := by
  rw [← h.fields_eq, List.map_map]
  rfl

-- Every key of what is dumped is known.
theorem checkKeys_rows (h : FieldTrips S dump load fields rows) :
    Load.checkKeys (fields.map Field.key) (some (.object (rows.map fun r => (r.1.key, r.2.tree)))) =
      pure () := by
  refine checkKeys_object ?_
  rw [← h.fields_eq, Keyed.keys, List.map_map, List.map_map]
  exact List.Subset.refl _

theorem loadMapping_rows {options : Options} (h : FieldTrips S dump load fields rows)
    (hs : S.shape (.declared id) = .record fields false) (hn : (fields.map Field.key).Nodup) :
    Direct.loadMapping S options (.declared id) (fields.map fun f => (f, load f.ty))
        (some (.object (rows.map fun r => (r.1.key, r.2.tree)))) =
      pure (.record id (rows.map fun r => r.2.back)) := by
  have hkeys : (Keyed.keys (rows.map fun r => (r.1.key, r.2.tree))).Nodup := by
    rw [← h.fields_eq, List.map_map] at hn
    rw [Keyed.keys, List.map_map]
    exact hn
  have hfields : (fields.map fun f => (f, load f.ty)).map (·.1.key) = fields.map Field.key := by
    rw [List.map_map]
    rfl
  simp only [Direct.loadMapping, hfields, Load.checkMapping, Load.required, Run.pure_bind,
    h.checkKeys_rows, ite_self]
  rw [h.map_rules load, Run.forEach_map,
    Run.forEach_eq_pure (g := fun r => r.2.back) fun i r hi => ?field]
  case field =>
    have hm := List.mem_of_getElem? hi
    have hget := Keyed.get?_of_mem hkeys (List.mem_map_of_mem (f := fun r => (r.1.key, r.2.tree)) hm)
    simp only [Load.entry, hget, Direct.loadPart_found, (h.closes r hm).loaded, Run.within_pure]
  rw [Run.pure_bind, Schema.construct_record hs h.backs_ty]
  rfl

theorem same_record (h : FieldTrips S dump load fields rows) :
    Value.Same (.record id (rows.map fun r => r.2.value)) (.record id (rows.map fun r => r.2.back)) :=
  .record <| forall₂_maps fun r hr => (h.closes r hr).same

theorem closes_mapping {options options' : Options} (h : FieldTrips S dump load fields rows)
    (ho : options.omitNull = false) (hs : S.shape (.declared id) = .record fields false)
    (hn : (fields.map Field.key).Nodup) :
    Trip.Closes S
      (fun v =>
        Direct.dumpMapping S options (.declared id) v 0 [] (fields.map fun f => (f, dump f.ty)))
      (Direct.loadMapping S options' (.declared id) (fields.map fun f => (f, load f.ty)))
      ⟨.record id (rows.map fun r => r.2.value), .object (rows.map fun r => (r.1.key, r.2.tree)),
        .record id (rows.map fun r => r.2.back)⟩ where
  dumped := by
    have hkeys : (rows.map fun r => r.1.key).Nodup := by
      rw [← h.fields_eq, List.map_map] at hn
      exact hn
    rw [← h.fields_eq, Direct.dumpMapping_eq (fun r hr => (h.closes r hr).dumped) hkeys,
      Direct.kept_eq_self ho]
  loaded := h.loadMapping_rows hs hn
  same   := h.same_record
  null   := nofun

theorem closes_sequence (h : FieldTrips S dump load fields rows)
    (hs : S.shape (.declared id) = .record fields true) :
    Trip.Closes S (Direct.dumpSequence S (.declared id) (fields.map fun f => (f, dump f.ty)))
      (Direct.loadSequence S (.declared id) (fields.map fun f => (f, load f.ty)))
      ⟨.record id (rows.map fun r => r.2.value), .array (rows.map fun r => r.2.tree),
        .record id (rows.map fun r => r.2.back)⟩ where
  dumped := by
    rw [← h.fields_eq]
    exact Direct.dumpSequence_eq fun r hr => (h.closes r hr).dumped
  loaded := by
    have hlen : (rows.map fun r => r.2.tree).length = fields.length := by
      rw [← h.fields_eq, List.length_map, List.length_map]
    have hfields : (fields.map fun f => (f, load f.ty)).map (·.1) = fields := by
      rw [List.map_map]
      exact List.map_id fields
    have hcheck : Load.checkSequence (requiredLength fields) fields.length
        (some (.array (rows.map fun r => r.2.tree))) = pure () :=
      checkSequence_array (by rw [hlen]; exact requiredLength_le fields) (Nat.le_of_eq hlen)
    simp only [Direct.loadSequence, hfields, List.length_map, hcheck, Run.pure_bind]
    rw [h.map_rules load, Run.forEach_map,
      Run.forEach_eq_pure (g := fun r => r.2.back) fun i r hi => ?field]
    case field =>
      have helem : (rows.map fun r => r.2.tree)[0 + i]? = some r.2.tree := by simp [hi]
      simp only [Load.element, helem, Direct.loadPart_found,
        (h.closes r (List.mem_of_getElem? hi)).loaded, Run.within_pure]
    rw [Run.pure_bind, Schema.construct_record hs h.backs_ty]
    rfl
  same   := h.same_record
  null   := nofun

end FieldTrips
end Record

section Tuple

variable {S : Schema} {dump : Ty → Dump.Rule} {load : Ty → Load.Rule} {rows : List (Ty × Trip)}

theorem closes_tuple (hc : ∀ r ∈ rows, r.2.Closes S (dump r.1) (load r.1))
    (ht : ∀ r ∈ rows, r.2.value.ty = r.1) {ts : List Ty} (hts : rows.map Prod.fst = ts) :
    Trip.Closes S (Direct.dumpTuple S (.tuple ts) (ts.map dump))
      (Direct.loadTuple S (.tuple ts) (ts.map load))
      ⟨.tuple (rows.map fun r => r.2.value), .array (rows.map fun r => r.2.tree),
        .tuple (rows.map fun r => r.2.back)⟩ where
  dumped := by
    rw [← hts]
    exact Direct.dumpTuple_eq ht fun r hr => (hc r hr).dumped
  loaded := by
    have hrun : Run.forEach (fun i rule => (Direct.loadPart rule none (Load.element i
        (some (.array (rows.map fun r => r.2.tree))))).within (.index i)) 0
        (rows.map fun r => load r.1) = pure (rows.map fun r => r.2.back) := by
      rw [Run.forEach_map]
      refine Run.forEach_eq_pure fun i r hi => ?_
      have helem : (rows.map fun r => r.2.tree)[0 + i]? = some r.2.tree := by simp [hi]
      simp only [Load.element, helem, Direct.loadPart_found,
        (hc r (List.mem_of_getElem? hi)).loaded, Run.within_pure]
    have hrules : ts.map load = rows.map fun r => load r.1 := by
      rw [← hts, List.map_map]
      rfl
    have hty : (rows.map fun r => r.2.back).map Value.ty = ts := by
      rw [← hts, List.map_map]
      exact List.map_congr_left fun r hr => (hc r hr).back_ty.trans (ht r hr)
    have hcheck : Load.checkSequence rows.length rows.length
        (some (.array (rows.map fun r => r.2.tree))) = pure () :=
      checkSequence_array (by simp) (by simp)
    rw [Direct.loadTuple, hrules]
    simp only [List.length_map, hcheck, Run.pure_bind, hrun, Schema.construct_tuple hty,
      Run.ofExcept_ok]
  same   := .tuple <| forall₂_maps fun r hr => (hc r hr).same
  null   := nofun

end Tuple
end TreeCodec
