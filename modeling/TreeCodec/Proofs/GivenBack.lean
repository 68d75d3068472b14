import TreeCodec.Proofs.Gives
import TreeCodec.Proofs.NullsKept
import TreeCodec.Proofs.RecordTrip
import TreeCodec.Proofs.Reordered

/-!
When the rules of the kinds give a value back, told by when its parts are given back.
-/
namespace TreeCodec

variable {S : Schema} {t u : Ty} {v : Value}

/-! ## Construction -/

namespace Schema

variable {vs ws : List Value}

theorem wrapSome_gives {w : Value} (ht : v.ty = t) :
    (Run.ofExcept (S.wrapSome t w)).Gives (Value.some v).Same ↔ v.Same w := by
  simp only [Run.gives_ofExcept, wrapSome_eq_ok_iff]
  constructor
  · rintro ⟨_, ⟨_, rfl⟩, h⟩
    exact Value.some_same_some.mp h
  · exact fun h => ⟨_, ⟨h.ty_eq ▸ ht, rfl⟩, .some h⟩

theorem wrapBox_gives {w : Value} (ht : v.ty = t) :
    (Run.ofExcept (S.wrapBox t w)).Gives (Value.boxed v).Same ↔ v.Same w := by
  simp only [Run.gives_ofExcept, wrapBox_eq_ok_iff]
  constructor
  · rintro ⟨_, ⟨_, rfl⟩, h⟩
    exact Value.boxed_same_boxed.mp h
  · exact fun h => ⟨_, ⟨h.ty_eq ▸ ht, rfl⟩, .boxed h⟩

theorem buildList_gives {k : ListKind} (ht : ∀ v ∈ vs, v.ty = t) :
    (Run.ofExcept (S.buildList (.list k t) t ws)).Gives (Value.list k t vs).Same ↔
      List.Forall₂ Value.Same vs ws := by
  simp only [Run.gives_ofExcept, buildList_eq_ok_iff]
  constructor
  · rintro ⟨_, ⟨_, _, _, hl, rfl⟩, h⟩
    cases hl
    exact Value.list_same_list.mp h
  · intro h
    have hw : ∀ w ∈ ws, w.ty = t :=
      (forall_mem_iff_of_forall₂ h fun _ _ hvw => by rw [hvw.ty_eq]).mp ht
    exact ⟨_, ⟨hw, k, t, rfl, rfl⟩, .list h⟩

-- Entries with the keys of a map, in an order in which they may be written.
theorem buildMap_gives {kind : MapKind} {s : ScalarTy} {es es' fs : List (Value × Value)}
    (hp : es.Perm es') (ho : kind = .ordered → es' = es) (hs : ∀ e ∈ es, S.HasType (.scalar s) e.1)
    (ht : ∀ e ∈ es, e.2.ty = u) (ha : S.KeysApart kind (es.map Prod.fst))
    (ha' : S.KeysApart kind (es'.map Prod.fst)) (hk : es'.map Prod.fst = fs.map Prod.fst) :
    (Run.ofExcept (S.buildMap (.map kind (.scalar s) u) kind (.scalar s) u fs)).Gives
        (Value.map kind (.scalar s) u es).Same ↔
      List.Forall₂ Value.Same (es'.map Prod.snd) (fs.map Prod.snd) := by
  have hkeys : ∀ k ∈ es.map Prod.fst, S.HasType (.scalar s) k := List.forall_mem_map.mpr hs
  have hfs : ∀ k ∈ fs.map Prod.fst, S.HasType (.scalar s) k := by
    rw [← hk]
    exact fun k hk => hkeys k ((hp.map Prod.fst).mem_iff.mpr hk)
  have hcollect : S.collect kind fs = fs := collect_eq_self hfs (hk ▸ ha')
  have hsame := Value.map_same_map (t := .scalar s) (u := u) hp ho (ha.nodup hkeys) hk
  simp only [Run.gives_ofExcept, buildMap_eq_ok_iff, hcollect]
  constructor
  · rintro ⟨_, ⟨_, _, rfl⟩, h⟩
    exact hsame.mp h
  · intro h
    have hes : ∀ v ∈ es'.map Prod.snd, v.ty = u :=
      List.forall_mem_map.mpr fun e he => ht e (hp.mem_iff.mpr he)
    have hty : ∀ w ∈ fs.map Prod.snd, w.ty = u :=
      (forall_mem_iff_of_forall₂ h fun _ _ hvw => by rw [hvw.ty_eq]).mp hes
    refine ⟨_, ⟨fun e he => ⟨?_, ?_⟩, ⟨_, _, _, rfl⟩, rfl⟩, hsame.mpr h⟩
    · exact (hfs e.1 (List.mem_map_of_mem he)).ty_eq
    · exact hty e.2 (List.mem_map_of_mem he)

theorem construct_record_gives {id : String} {fields : List Field} {positional : Bool}
    (hs : S.shape (.declared id) = .record fields positional)
    (ht : vs.map Value.ty = fields.map Field.ty) :
    (Run.ofExcept (S.construct (.declared id) ws)).Gives (Value.record id vs).Same ↔
      List.Forall₂ Value.Same vs ws := by
  simp only [Run.gives_ofExcept]
  constructor
  · rintro ⟨_, hw, h⟩
    rcases construct_eq_ok_iff.mp hw with ⟨_, _, _, hid, _, _, rfl⟩ | ⟨_, htuple, _⟩
    · cases hid
      exact Value.record_same_record.mp h
    · rw [hs] at htuple
      cases htuple
  · exact fun h => ⟨_, construct_record hs (Value.map_ty_eq_of_same h ▸ ht), .record h⟩

theorem construct_tuple_gives {ts : List Ty} (ht : vs.map Value.ty = ts) :
    (Run.ofExcept (S.construct (.tuple ts) ws)).Gives (Value.tuple vs).Same ↔
      List.Forall₂ Value.Same vs ws := by
  simp only [Run.gives_ofExcept]
  constructor
  · rintro ⟨_, hw, h⟩
    rcases construct_eq_ok_iff.mp hw with ⟨_, _, _, hid, _⟩ | ⟨_, _, _, rfl⟩
    · cases hid
    · exact Value.tuple_same_tuple.mp h
  · exact fun h => ⟨_, construct_tuple (Value.map_ty_eq_of_same h ▸ ht), .tuple h⟩

end Schema

/-! ## Rules -/

section Rules

variable {load : Load.Rule} {α : Type} {rows : List α} {value : α → Value} {tree : α → Tree}

theorem Load.optional_gives {x : Tree} (hx : x ≠ .null) (ht : v.ty = t) :
    (Load.optional S t load (some x)).Gives (Value.some v).Same ↔
      (load (some x)).Gives v.Same := by
  have hload : Load.optional S t load (some x) =
      load (some x) >>= fun w => Run.ofExcept (S.wrapSome t w) := by
    cases x <;> first | rfl | contradiction
  rw [hload, Run.gives_bind]
  exact Run.gives_congr fun w _ => Schema.wrapSome_gives ht

theorem Load.boxed_gives {input : Option Tree} (ht : v.ty = t) :
    (Load.boxed S t load input).Gives (Value.boxed v).Same ↔ (load input).Gives v.Same := by
  rw [Load.boxed, Run.gives_bind]
  exact Run.gives_congr fun w _ => Schema.wrapBox_gives ht

-- Runs over rows give the values of the rows if each of them does.
theorem gives_rows {β : Type} {f : Nat → β → Run Value} {g : α → β} {Q : α → Prop}
    (h : ∀ i r, rows[i]? = some r → ((f i (g r)).Gives (value r).Same ↔ Q r)) :
    (Run.forEach f 0 (rows.map g)).Gives (List.Forall₂ Value.Same (rows.map value)) ↔
      ∀ r ∈ rows, Q r := by
  rw [Run.forEach_map]
  refine (Run.gives_congr fun _ _ => List.forall₂_map_left_iff).trans ?_
  refine Run.gives_forEach_iff fun i r hr => ?_
  rw [Nat.zero_add]
  exact h i r hr

theorem Load.list_gives {k : ListKind} (ht : ∀ r ∈ rows, (value r).ty = t) :
    (Load.list S (.list k t) t load (some (.array (rows.map tree)))).Gives
        (Value.list k t (rows.map value)).Same ↔
      ∀ r ∈ rows, (load (some (tree r))).Gives (value r).Same := by
  simp only [Load.list, Load.required, Run.pure_bind, Run.gives_bind,
    Schema.buildList_gives (List.forall_mem_map.mpr ht)]
  exact gives_rows fun i r _ => Run.gives_within

section Map

variable {kind : MapKind} {s : ScalarTy} {loadKey : Load.Rule} {key : α → Value} {name : α → String}

-- The keys of a map are loaded from their texts.
theorem Load.keys_of_mapEntry {fs : List (Value × Value)}
    (hload : ∀ r ∈ rows, loadKey (some (.text (name r))) = pure (key r))
    (h : (Run.forEach (fun _ r => mapEntry loadKey load (name r, tree r)) 0 rows).outcome =
      .done fs) : rows.map key = fs.map Prod.fst := by
  have hentries := (List.forall₂_and_left _ _).mpr ⟨hload, (Run.forEach_done_iff 0).mp h⟩
  have hkeys : List.Forall₂ Eq (rows.map key) (fs.map Prod.fst) := by
    rw [List.forall₂_map_left_iff, List.forall₂_map_right_iff]
    refine hentries.imp fun r f ⟨hk, hf⟩ => ?_
    have hf := mapEntry_key hf
    rw [hk] at hf
    exact Outcome.done.inj hf
  rwa [List.forall₂_eq_eq_eq] at hkeys

theorem Load.map_gives (hload : ∀ r ∈ rows, loadKey (some (.text (name r))) = pure (key r))
    (hs : ∀ r ∈ rows, S.HasType (.scalar s) (key r)) (ht : ∀ r ∈ rows, (value r).ty = u)
    (ha : S.KeysApart kind (rows.map key)) :
    (Load.map S (.map kind (.scalar s) u) kind (.scalar s) u loadKey load
        (some (.object ((Dump.written kind name rows).map fun r => (name r, tree r))))).Gives
        (Value.map kind (.scalar s) u (rows.map fun r => (key r, value r))).Same ↔
      ∀ r ∈ rows, (load (some (tree r))).Gives (value r).Same := by
  have hp := Dump.written_perm kind name rows
  have ho : kind = .ordered → Dump.written kind name rows = rows := by
    rintro rfl
    rfl
  have ha' := Dump.keysApart_written name hs ha
  generalize Dump.written kind name rows = rows' at hp ho ha'
  have hload' : ∀ r ∈ rows', loadKey (some (.text (name r))) = pure (key r) :=
    fun r hr => hload r (hp.mem_iff.mpr hr)
  have hrun : Load.map S (.map kind (.scalar s) u) kind (.scalar s) u loadKey load
      (some (.object (rows'.map fun r => (name r, tree r)))) =
      Run.forEach (fun _ => mapEntry loadKey load) 0 (rows'.map fun r => (name r, tree r)) >>=
        fun es => Run.ofExcept (S.buildMap (.map kind (.scalar s) u) kind (.scalar s) u es) := rfl
  -- The keys are given back in any case, so only the values count.
  have hbuild : ∀ fs, (Run.forEach (fun _ r => mapEntry loadKey load (name r, tree r)) 0
      rows').outcome = .done fs →
      ((Run.ofExcept (S.buildMap (.map kind (.scalar s) u) kind (.scalar s) u fs)).Gives
        (Value.map kind (.scalar s) u (rows.map fun r => (key r, value r))).Same ↔
      List.Forall₂ (fun r f => (value r).Same f.2) rows' fs) := by
    intro fs hfs
    have hkeys := keys_of_mapEntry hload' hfs
    rw [Schema.buildMap_gives (hp.map fun r => (key r, value r)), List.map_map,
      List.forall₂_map_left_iff, List.forall₂_map_right_iff]
    · rfl
    · exact fun h => by rw [ho h]
    · exact List.forall_mem_map.mpr hs
    · exact List.forall_mem_map.mpr ht
    · rwa [List.map_map]
    · rwa [List.map_map]
    · rwa [List.map_map]
  rw [hrun, Run.forEach_map, Run.gives_bind, Run.gives_congr hbuild]
  simp only [hp.mem_iff]
  refine Run.gives_forEach_iff fun i r hr => ?_
  simp only [mapEntry, hload' r (List.mem_of_getElem? hr), Run.within_pure, Run.pure_bind,
    Run.gives_bind, Run.gives_within, Run.gives_pure]

end Map

end Rules

/-! ## Parts -/

namespace Direct

variable {load : Ty → Load.Rule} {α : Type} {rows : List α} {value : α → Value} {tree : α → Tree}
  {id : String} {field : α → Field} {options options' : Options}

theorem loadTuple_gives {ty : α → Ty} (ht : ∀ r ∈ rows, (value r).ty = ty r) :
    (loadTuple S (.tuple (rows.map ty)) ((rows.map ty).map load)
        (some (.array (rows.map tree)))).Gives (Value.tuple (rows.map value)).Same ↔
      ∀ r ∈ rows, (load (ty r) (some (tree r))).Gives (value r).Same := by
  have htypes : (rows.map value).map Value.ty = rows.map ty := by
    rw [List.map_map]
    exact List.map_congr_left ht
  have hcheck : Load.checkSequence ((rows.map ty).map load).length ((rows.map ty).map load).length
      (some (.array (rows.map tree))) = pure () :=
    checkSequence_array (by simp) (by simp)
  simp only [loadTuple, hcheck, Run.pure_bind, Run.gives_bind, Schema.construct_tuple_gives htypes]
  rw [List.map_map]
  refine gives_rows fun i r hr => ?_
  have helem : (rows.map tree)[i]? = some (tree r) := by simp [hr]
  simp only [Load.element, helem, loadPart_found, Run.gives_within]
  rfl

theorem loadSequence_gives (hs : S.shape (.declared id) = .record (rows.map field) true)
    (ht : ∀ r ∈ rows, (value r).ty = (field r).ty) :
    (loadSequence S (.declared id) ((rows.map field).map fun f => (f, load f.ty))
        (some (.array (rows.map tree)))).Gives (Value.record id (rows.map value)).Same ↔
      ∀ r ∈ rows, (load (field r).ty (some (tree r))).Gives (value r).Same := by
  have htypes : (rows.map value).map Value.ty = (rows.map field).map Field.ty := by
    rw [List.map_map, List.map_map]
    exact List.map_congr_left ht
  have hfields : ((rows.map field).map fun f => (f, load f.ty)).map Prod.fst = rows.map field := by
    rw [List.map_map]
    exact List.map_id _
  have hcheck : Load.checkSequence (requiredLength (rows.map field)) (rows.map field).length
      (some (.array (rows.map tree))) = pure () :=
    checkSequence_array (by simpa using requiredLength_le (rows.map field)) (by simp)
  simp only [loadSequence, hfields, List.length_map] at hcheck ⊢
  simp only [hcheck, Run.pure_bind, Run.gives_bind, Schema.construct_record_gives hs htypes]
  rw [List.map_map]
  refine gives_rows fun i r hr => ?_
  have helem : (rows.map tree)[i]? = some (tree r) := by simp [hr]
  simp only [Function.comp, Load.element, helem, loadPart_found, Run.gives_within]

theorem loadMapping_gives (hs : S.shape (.declared id) = .record (rows.map field) false)
    (hn : ((rows.map field).map Field.key).Nodup) (ht : ∀ r ∈ rows, (value r).ty = (field r).ty) :
    (loadMapping S options' (.declared id) ((rows.map field).map fun f => (f, load f.ty))
        (some (.object ((kept options tree rows).map fun r => ((field r).key, tree r))))).Gives
        (Value.record id (rows.map value)).Same ↔
      ∀ r ∈ rows, (loadPart (load (field r).ty) (field r).default
        (pure (if options.omitNull && tree r = .null then none else some (tree r)))).Gives
          (value r).Same := by
  have htypes : (rows.map value).map Value.ty = (rows.map field).map Field.ty := by
    rw [List.map_map, List.map_map]
    exact List.map_congr_left ht
  have hfields : ((rows.map field).map fun f => (f, load f.ty)).map (·.1.key) =
      (rows.map field).map Field.key := by
    rw [List.map_map]
    rfl
  rw [List.map_map] at hn
  have hknown : Load.checkKeys ((rows.map field).map Field.key)
      (some (.object ((kept options tree rows).map fun r => ((field r).key, tree r)))) =
      pure () := by
    refine checkKeys_object ?_
    rw [Keyed.keys, List.map_map, List.map_map]
    exact ((kept_sublist options tree rows).map _).subset
  simp only [loadMapping, hfields, Load.checkMapping, Load.required, Run.pure_bind, hknown,
    ite_self, Run.gives_bind, Schema.construct_record_gives hs htypes]
  rw [List.map_map]
  refine gives_rows fun i r hr => ?_
  have hget : Keyed.get? (field r).key
      ((kept options tree rows).map fun r => ((field r).key, tree r)) = _ :=
    get?_kept hn (List.mem_of_getElem? hr)
  simp only [Function.comp, Load.entry, Run.gives_within, hget]

end Direct
end TreeCodec
