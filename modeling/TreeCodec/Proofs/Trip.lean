import TreeCodec.Proofs.Dumped

/-!
Values that are dumped and loaded again: what the rule of a kind does with the trips of the parts.
-/
namespace TreeCodec

-- Whether a value of the type may be dumped as null.
def Schema.nullable (S : Schema) : Ty → Bool
  | .optional _ => true
  | .boxed t    => S.nullable t
  | t           => S.kind t = .dynamic

-- A value, the tree that it is dumped as, and the value that the tree is loaded as.
structure Trip where
  value : Value
  tree  : Tree
  back  : Value

namespace Trip

variable (S : Schema)

structure Closes (dump : Dump.Rule) (load : Load.Rule) (p : Trip) : Prop where
  dumped : dump p.value = pure p.tree
  loaded : load (some p.tree) = pure p.back
  same   : p.value.Same p.back
  null   : p.tree = .null → S.nullable p.value.ty

variable {S} {dump : Dump.Rule} {load : Load.Rule} {p : Trip} {t : Ty}

theorem Closes.back_ty (h : p.Closes S dump load) : p.back.ty = p.value.ty :=
  h.same.ty_eq.symm

-- Parts of the loaded value are of the types that they are needed as.
theorem Closes.require (h : p.Closes S dump load) (ht : p.value.ty = t) :
    S.require t p.back = .ok p.back :=
  if_pos (h.back_ty.trans ht)

theorem closes_tree (ht : S.shape t = .dynamic) (x : Tree) :
    Closes S (Dump.tree S t) (Load.tree t) ⟨.tree t x, x, .tree t x⟩ where
  dumped := by
    have hx : S.toTree t (.tree t x) = .ok x := by
      simp [Schema.toTree, Schema.require, Value.ty, bind, Except.bind, pure, Except.pure]
    rw [Dump.tree, hx, Run.ofExcept_ok]
  loaded := rfl
  same   := .refl _
  null   := by
    intro _
    show S.nullable t
    cases t <;> simp_all [Schema.nullable, Schema.kind, Schema.shape, Shape.kind]

theorem closes_none :
    Closes S (Dump.optional S (.optional t) dump) (Load.optional S t load)
      ⟨.none t, .null, .none t⟩ where
  dumped := Dump.optional_none
  loaded := rfl
  same   := .refl _
  null   := fun _ => rfl

-- An option around a value that is not dumped as null.
theorem Closes.some (h : p.Closes S dump load) (ht : p.value.ty = t) (hn : ¬S.nullable t) :
    Closes S (Dump.optional S (.optional t) dump) (Load.optional S t load)
      ⟨.some p.value, p.tree, .some p.back⟩ where
  dumped := (Dump.optional_some ht).trans h.dumped
  loaded := by
    have hne : p.tree ≠ .null := fun hp => hn (ht ▸ h.null hp)
    have hload : Load.optional S t load (Option.some p.tree) =
        load (Option.some p.tree) >>= fun v => Run.ofExcept (S.wrapSome t v) := by
      cases hp : p.tree <;> first | rfl | contradiction
    rw [hload, h.loaded, Run.pure_bind, Schema.wrapSome, h.require ht]
    rfl
  same   := .some h.same
  null   := fun _ => rfl

theorem Closes.boxed (h : p.Closes S dump load) (ht : p.value.ty = t) :
    Closes S (Dump.boxed S (.boxed t) dump) (Load.boxed S t load)
      ⟨.boxed p.value, p.tree, .boxed p.back⟩ where
  dumped := (Dump.boxed_eq ht).trans h.dumped
  loaded := by
    rw [Load.boxed, h.loaded, Run.pure_bind, Schema.wrapBox, h.require ht]
    rfl
  same   := .boxed h.same
  null   := h.null

section Items

variable {trips : List Trip}

theorem buildList_backs {k : ListKind} (h : ∀ p ∈ trips, p.Closes S dump load ∧ p.value.ty = t) :
    S.buildList (.list k t) t (trips.map back) = .ok (.list k t (trips.map back)) := by
  have hreq : (trips.map back).mapM (S.require t) = .ok ((trips.map back).map id) := by
    refine mapM_eq_ok fun w hw => ?_
    have ⟨p, hp, he⟩ := List.mem_map.mp hw
    exact he ▸ (h p hp).left.require (h p hp).right
  rw [Schema.buildList, hreq, List.map_id]
  rfl

theorem closes_list {k : ListKind} (h : ∀ p ∈ trips, p.Closes S dump load ∧ p.value.ty = t) :
    Closes S (Dump.list S (.list k t) dump) (Load.list S (.list k t) t load)
      ⟨.list k t (trips.map value), .array (trips.map tree), .list k t (trips.map back)⟩ where
  dumped := Dump.list_eq fun p hp => (h p hp).left.dumped
  loaded := by
    have hrun : Run.forEach (fun i t => (load (Option.some t)).within (.index i)) 0
        (trips.map tree) = pure (trips.map back) := by
      rw [Run.forEach_map]
      refine Run.forEach_eq_pure fun i p hp => ?_
      rw [(h p (List.mem_of_getElem? hp)).left.loaded]
      rfl
    simp only [Load.list, Load.required, Run.pure_bind, hrun, buildList_backs h, Run.ofExcept_ok]
  same   := .list <| forall₂_maps fun p hp => (h p hp).left.same
  null   := nofun

end Items

end Trip

-- An entry of a map: its key, the text that the key is written as, and the trip of its value.
structure EntryTrip where
  key  : Value
  name : String
  trip : Trip

namespace EntryTrip

structure Closes (S : Schema) (dumpKey : Dump.Rule) (loadKey : Load.Rule) (dump : Dump.Rule)
    (load : Load.Rule) (r : EntryTrip) : Prop where
  dumped : ∃ tree, dumpKey r.key = pure tree ∧ Dump.keyText tree = pure r.name
  loaded : loadKey (some (.text r.name)) = pure r.key
  trip   : r.trip.Closes S dump load

variable {S : Schema} {kind : MapKind} {s : ScalarTy} {u : Ty} {dumpKey dump : Dump.Rule}
  {loadKey load : Load.Rule} {rows : List EntryTrip}

theorem loadedEntries (hr : ∀ r ∈ rows, r.Closes S dumpKey loadKey dump load) :
    Run.forEach (fun _ (name, t) => do
      let k ← (loadKey (some (.text name))).within (.key name)
      let v ← (load (some t)).within (.key name)
      return (k, v)) 0 (rows.map fun r => (r.name, r.trip.tree)) =
    pure (rows.map fun r => (r.key, r.trip.back)) := by
  rw [Run.forEach_map]
  refine Run.forEach_eq_pure fun i r hi => ?_
  have hc := hr r (List.mem_of_getElem? hi)
  simp only [hc.loaded, hc.trip.loaded, Run.pure_bind, Run.within_pure]

theorem buildMap_backs (hr : ∀ r ∈ rows, r.Closes S dumpKey loadKey dump load)
    (hs : ∀ r ∈ rows, S.HasType (.scalar s) r.key) (hu : ∀ r ∈ rows, r.trip.value.ty = u)
    (h : S.KeysApart kind (rows.map key)) :
    S.buildMap (.map kind (.scalar s) u) kind (.scalar s) u (rows.map fun r => (r.key, r.trip.back)) =
      .ok (.map kind (.scalar s) u (rows.map fun r => (r.key, r.trip.back))) := by
  generalize hes : rows.map (fun r => (r.key, r.trip.back)) = es
  have htypes : ∀ e ∈ es, e.1.ty = .scalar s ∧ e.2.ty = u := by
    intro e he
    obtain ⟨r, hm, rfl⟩ := List.mem_map.mp (hes ▸ he)
    exact ⟨(hs r hm).ty_eq, (hr r hm).trip.back_ty.trans (hu r hm)⟩
  have hcollect : S.collect kind es = es := by
    have hkeys : es.map Prod.fst = rows.map key := by
      rw [← hes, List.map_map]
      rfl
    exact Schema.collect_eq_self (s := s) (hkeys ▸ List.forall_mem_map.mpr hs) (hkeys ▸ h)
  exact Schema.buildMap_eq_ok_iff.mpr ⟨htypes, ⟨_, _, _, rfl⟩, by rw [hcollect]⟩

theorem closes_map (hr : ∀ r ∈ rows, r.Closes S dumpKey loadKey dump load)
    (hs : ∀ r ∈ rows, S.HasType (.scalar s) r.key) (hu : ∀ r ∈ rows, r.trip.value.ty = u)
    (h : S.KeysApart kind (rows.map key)) :
    Trip.Closes S (Dump.map S (.map kind (.scalar s) u) kind dumpKey dump)
      (Load.map S (.map kind (.scalar s) u) kind (.scalar s) u loadKey load)
      ⟨.map kind (.scalar s) u (rows.map fun r => (r.key, r.trip.value)),
        .object ((Dump.written kind name rows).map fun r => (r.name, r.trip.tree)),
        .map kind (.scalar s) u ((Dump.written kind name rows).map fun r => (r.key, r.trip.back))⟩ where
  dumped := by
    refine Dump.map_eq (fun r hm => (hr r hm).dumped) (fun r hm => (hr r hm).trip.dumped) ?_
    exact Dump.nodup_names (fun r hm => (hr r hm).loaded) (h.nodup (List.forall_mem_map.mpr hs))
  loaded := by
    have hp := Dump.written_perm kind name rows
    have hr' : ∀ r ∈ Dump.written kind name rows, r.Closes S dumpKey loadKey dump load :=
      fun r hm => hr r (hp.mem_iff.mpr hm)
    have hbuild := buildMap_backs hr' (fun r hm => hs r (hp.mem_iff.mpr hm))
      (fun r hm => hu r (hp.mem_iff.mpr hm)) (Dump.keysApart_written name hs h)
    unfold Load.map
    simp only [Load.required, Run.pure_bind, loadedEntries hr', hbuild, Run.ofExcept_ok]
  same   := by
    have hsame : ∀ rows' : List EntryTrip, rows.Perm rows' → List.Forall₂ Value.Same
        ((rows'.map fun r => (r.key, r.trip.value)).map Prod.snd)
        ((rows'.map fun r => (r.key, r.trip.back)).map Prod.snd) := by
      intro rows' hp
      rw [List.map_map, List.map_map]
      exact forall₂_maps fun r hm => (hr r (hp.mem_iff.mpr hm)).trip.same
    cases kind with
    | ordered => exact .ordered (by simp [Dump.written]) (hsame _ (.refl _))
    | unordered =>
      have hp := Dump.written_perm .unordered name rows
      exact .unordered (hp.map _) (by simp) (hsame _ hp)
  null   := nofun

end EntryTrip
end TreeCodec
