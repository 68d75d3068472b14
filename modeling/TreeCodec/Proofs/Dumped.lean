import Mathlib.Data.List.Nodup
import TreeCodec.Convert.Direct
import TreeCodec.Proofs.Entries
import TreeCodec.Proofs.Lists
import TreeCodec.Proofs.PureRun
import TreeCodec.Proofs.ValueParts

/-!
What the rules of the kinds dump, given the trees of the parts.

The parts of a value are told by rows, one for each part, with the value and the tree of the part.
-/
namespace TreeCodec

variable {S : Schema} {α : Type} {rows : List α} {value : α → Value} {tree : α → Tree}

namespace Dump

variable {dump : Rule} {t : Ty} {v : Value}

theorem optional_none : optional S (.optional t) dump (.none t) = pure .null := by
  have ho : S.optionValue (.optional t) (.none t) = .ok none :=
    Schema.optionValue_eq_ok_iff.mpr ⟨rfl, t, rfl⟩
  rw [optional, ho]
  rfl

theorem optional_some (h : v.ty = t) : optional S (.optional t) dump (.some v) = dump v := by
  have ho : S.optionValue (.optional t) (.some v) = .ok (Option.some v) :=
    Schema.optionValue_eq_ok_iff.mpr ⟨congrArg Ty.optional h, rfl⟩
  rw [optional, ho]
  rfl

theorem boxed_eq (h : v.ty = t) : boxed S (.boxed t) dump (.boxed v) = dump v := by
  have hb : S.boxValue (.boxed t) (.boxed v) = .ok v :=
    Schema.boxValue_eq_ok_iff.mpr ⟨congrArg Ty.boxed h, rfl⟩
  rw [boxed, hb]
  rfl

theorem list_eq {k : ListKind} (h : ∀ r ∈ rows, dump (value r) = pure (tree r)) :
    list S (.list k t) dump (.list k t (rows.map value)) = pure (.array (rows.map tree)) := by
  have hi : S.listItems (.list k t) (.list k t (rows.map value)) = .ok (rows.map value) :=
    Schema.listItems_eq_ok_iff.mpr ⟨rfl, k, t, rfl⟩
  have hrun : Run.forEach (fun i w => (dump w).within (.index i)) 0 (rows.map value) =
      pure (rows.map tree) := by
    rw [Run.forEach_map]
    refine Run.forEach_eq_pure fun i r hr => ?_
    rw [h r (List.mem_of_getElem? hr)]
    rfl
  rw [list, hi, Run.ofExcept_ok, Run.pure_bind, hrun]
  rfl

-- Entries in the order in which they are written.
def written (kind : MapKind) (name : α → String) (rows : List α) : List α :=
  match kind with
  | .unordered => rows.mergeSort fun r r' => name r ≤ name r'
  | .ordered => rows

theorem written_perm (kind : MapKind) (name : α → String) (rows : List α) :
    rows.Perm (written kind name rows) := by
  cases kind with
  | unordered => exact (List.mergeSort_perm ..).symm
  | ordered => exact .refl _

-- An unordered map is written in the order of the texts.
theorem sortByKey_eq (name : α → String) (tree : α → Tree) (rows : List α) :
    sortByKey (rows.map fun r => (name r, tree r)) =
      (written .unordered name rows).map fun r => (name r, tree r) := by
  unfold sortByKey written
  rw [List.map_mergeSort]
  exact fun _ _ _ _ => rfl

theorem keysApart_written {kind : MapKind} {s : ScalarTy} {key : α → Value} (name : α → String)
    (hs : ∀ r ∈ rows, S.HasType (.scalar s) (key r)) (h : S.KeysApart kind (rows.map key)) :
    S.KeysApart kind ((written kind name rows).map key) := by
  cases kind with
  | ordered => exact h
  | unordered =>
    have hp := (written_perm .unordered name rows).map key
    have hks : ∀ k ∈ rows.map key, S.HasType (.scalar s) k := List.forall_mem_map.mpr hs
    refine (Schema.keysApart_unordered_iff fun k hk => hks k (hp.mem_iff.mpr hk)).mpr ?_
    exact hp.nodup_iff.mp <| (Schema.keysApart_unordered_iff hks).mp h

-- Keys that differ are written as texts that differ if the texts are read back.
theorem nodup_names {loadKey : Load.Rule} {key : α → Value} {name : α → String}
    (h : ∀ r ∈ rows, loadKey (some (.text (name r))) = pure (key r)) (hk : (rows.map key).Nodup) :
    (rows.map name).Nodup := by
  refine List.pairwise_map.mpr <| List.Pairwise.imp_of_mem ?_ (List.pairwise_map.mp hk)
  intro r r' hm hm' hne he
  have hback := (h r hm).symm
  rw [he, h r' hm'] at hback
  exact hne (Run.pure_injective hback)

theorem map_eq {kind : MapKind} {k u : Ty} {dumpKey : Rule} {key : α → Value} {name : α → String}
    (hk : ∀ r ∈ rows, ∃ tree, dumpKey (key r) = pure tree ∧ keyText tree = pure (name r))
    (h : ∀ r ∈ rows, dump (value r) = pure (tree r)) (hn : (rows.map name).Nodup) :
    map S (.map kind k u) kind dumpKey dump (.map kind k u (rows.map fun r => (key r, value r))) =
      pure (.object ((written kind name rows).map fun r => (name r, tree r))) := by
  have he : S.mapEntries (.map kind k u) (.map kind k u (rows.map fun r => (key r, value r))) =
      .ok (rows.map fun r => (key r, value r)) :=
    Schema.mapEntries_eq_ok_iff.mpr ⟨rfl, kind, k, u, rfl⟩
  have hkeys : (Keyed.keys ((written kind name rows).map fun r => (name r, tree r))).Nodup := by
    rw [Keyed.keys, List.map_map]
    exact ((written_perm kind name rows).map name).nodup_iff.mp hn
  simp only [map, he, Run.ofExcept_ok, Run.pure_bind, Run.forEach_map]
  rw [Run.forEach_eq_pure (g := fun r => (name r, tree r)) fun i r hi => ?entry]
  case entry =>
    have hr := List.mem_of_getElem? hi
    obtain ⟨key, hkey, hname⟩ := hk r hr
    simp only [hkey, hname, h r hr, Run.pure_bind, Run.within_pure]
  refine congrArg (fun es => pure (Tree.object es)) ?_
  rw [← Keyed.ofList_eq_self hkeys]
  cases kind with
  | unordered => exact congrArg Keyed.ofList (sortByKey_eq name tree rows)
  | ordered => rfl

end Dump

namespace Direct

variable {dump : Ty → Dump.Rule} {id : String}

theorem dumpPart_eq {rule : Dump.Rule} {v : Value} {t : Tree} (h : rule v = pure t) :
    dumpPart rule (.ok (some v)) = pure t := by
  simp only [dumpPart, Dump.part, Run.ofExcept_ok, Run.pure_bind, h]

theorem getField_row {r : α} {i : Nat} (hr : rows[i]? = some r) :
    S.getField (.declared id) i (.record id (rows.map value)) = .ok (some (value r)) :=
  Schema.getField_eq_ok_iff.mpr ⟨rfl, id, _, rfl, by simp [hr]⟩

theorem dumpTuple_eq {ty : α → Ty} (ht : ∀ r ∈ rows, (value r).ty = ty r)
    (h : ∀ r ∈ rows, dump (ty r) (value r) = pure (tree r)) :
    dumpTuple S (.tuple (rows.map ty)) ((rows.map ty).map dump) (.tuple (rows.map value)) =
      pure (.array (rows.map tree)) := by
  have hty : (Value.tuple (rows.map value)).ty = .tuple (rows.map ty) := by
    rw [Value.ty, Value.tyList_eq_map, List.map_map]
    exact congrArg Ty.tuple <| List.map_congr_left ht
  have hrun : Run.forEach (fun i rule => (dumpPart rule (S.getElement (.tuple (rows.map ty)) i
      (.tuple (rows.map value)))).within (.index i)) 0 ((rows.map ty).map dump) =
      pure (rows.map tree) := by
    rw [Run.forEach_map, Run.forEach_map]
    refine Run.forEach_eq_pure fun i r hi => ?_
    have hget : S.getElement (.tuple (rows.map ty)) (0 + i) (.tuple (rows.map value)) =
        .ok (some (value r)) := Schema.getElement_eq_ok_iff.mpr ⟨hty, _, rfl, by simp [hi]⟩
    rw [hget, dumpPart_eq (h r (List.mem_of_getElem? hi)), Run.within_pure]
  rw [dumpTuple, hrun]
  rfl

variable {field : α → Field}

theorem dumpSequence_eq (h : ∀ r ∈ rows, dump (field r).ty (value r) = pure (tree r)) :
    dumpSequence S (.declared id) ((rows.map field).map fun f => (f, dump f.ty))
      (.record id (rows.map value)) = pure (.array (rows.map tree)) := by
  rw [dumpSequence, Run.forEach_map, Run.forEach_map,
    Run.forEach_eq_pure (g := tree) fun i r hi => ?field]
  case field =>
    simp only [Nat.zero_add, getField_row hi, dumpPart_eq (h r (List.mem_of_getElem? hi)),
      Run.within_pure]
  rfl

-- The rows of the fields that are put under their keys.
def kept (options : Options) (tree : α → Tree) (rows : List α) : List α :=
  rows.filter fun r => !(options.omitNull && tree r = .null)

theorem kept_eq_self {options : Options} (h : options.omitNull = false) :
    kept options tree rows = rows := by
  simp [kept, h]

theorem kept_concat (options : Options) (tree : α → Tree) (rows : List α) (r : α) :
    kept options tree (rows ++ [r]) =
      if options.omitNull && tree r = .null then kept options tree rows
      else kept options tree rows ++ [r] := by
  unfold kept
  rw [List.filter_append, List.filter_singleton]
  cases options.omitNull && tree r = .null <;> simp

theorem kept_sublist (options : Options) (tree : α → Tree) (rows : List α) :
    (kept options tree rows).Sublist rows :=
  List.filter_sublist

theorem mem_kept_iff {options : Options} {r : α} :
    r ∈ kept options tree rows ↔ r ∈ rows ∧ ¬(options.omitNull && tree r = .null) := by
  rw [kept, List.mem_filter, Bool.not_eq_true', Bool.not_eq_true]

-- What stands under the key of a field.
theorem get?_kept {options : Options} {name : α → String} {r : α} (hn : (rows.map name).Nodup)
    (hr : r ∈ rows) :
    Keyed.get? (name r) ((kept options tree rows).map fun r => (name r, tree r)) =
      if options.omitNull && tree r = .null then none else some (tree r) := by
  have hkeys : Keyed.keys ((kept options tree rows).map fun r => (name r, tree r)) =
      (kept options tree rows).map name := by
    rw [Keyed.keys, List.map_map]
    rfl
  split
  case isTrue hnull =>
    rw [Keyed.get?_eq_none_iff, hkeys]
    intro hm
    obtain ⟨r', hr', he⟩ := List.mem_map.mp hm
    obtain ⟨hr', hne⟩ := mem_kept_iff.mp hr'
    exact hne <| List.inj_on_of_nodup_map hn hr' hr he ▸ hnull
  case isFalse hnull =>
    refine Keyed.get?_of_mem ?_ (List.mem_map_of_mem (mem_kept_iff.mpr ⟨hr, hnull⟩))
    exact hkeys ▸ ((kept_sublist options tree rows).map name).nodup hn

-- A field with a key of its own is put at the end.
theorem entries_concat {options : Options} {name : α → String} {r : α}
    (h : ∀ r' ∈ rows, name r' ≠ name r) :
    (if options.omitNull && tree r = .null then
        (kept options tree rows).map fun r => (name r, tree r)
      else Keyed.put (name r) (tree r) ((kept options tree rows).map fun r => (name r, tree r))) =
      (kept options tree (rows ++ [r])).map fun r => (name r, tree r) := by
  rw [kept_concat]
  split
  case isTrue => rfl
  case isFalse =>
    rw [Keyed.put_of_not_mem, List.map_append]
    · rfl
    · intro e he
      obtain ⟨r', hr', rfl⟩ := List.mem_map.mp he
      exact h r' (List.mem_filter.mp hr').left

-- Fields with different keys are put one after the other.
theorem dumpMapping_eq {options : Options}
    (h : ∀ r ∈ rows, dump (field r).ty (value r) = pure (tree r))
    (hn : (rows.map fun r => (field r).key).Nodup) :
    dumpMapping S options (.declared id) (.record id (rows.map value)) 0 []
      ((rows.map field).map fun f => (f, dump f.ty)) =
      pure (.object ((kept options tree rows).map fun r => ((field r).key, tree r))) := by
  -- The fields of the rows `pre` have been put, and those of `rest` are still to be.
  have hfrom : ∀ rest pre : List α, rows = pre ++ rest →
      dumpMapping S options (.declared id) (.record id (rows.map value)) pre.length
        ((kept options tree pre).map fun r => ((field r).key, tree r))
        ((rest.map field).map fun f => (f, dump f.ty)) =
      pure (.object ((kept options tree rows).map fun r => ((field r).key, tree r))) := by
    intro rest
    induction rest with
    | nil =>
      rintro pre rfl
      rw [List.append_nil]
      rfl
    | cons r rest ih =>
      intro pre hpre
      have hget : S.getField (.declared id) pre.length (.record id (rows.map value)) =
          .ok (some (value r)) := getField_row (by simp [hpre])
      have hkey : ∀ r' ∈ pre, (field r').key ≠ (field r).key := by
        intro r' hr'
        rw [hpre, List.map_append, List.nodup_append] at hn
        exact hn.right.right _ (List.mem_map_of_mem hr') _ (List.mem_cons_self ..)
      have hnext := ih (pre ++ [r]) (by simp [hpre])
      rw [List.length_append, List.length_singleton, ← entries_concat hkey] at hnext
      simp only [List.map_cons, dumpMapping, hget, dumpPart_eq (h r (by simp [hpre])),
        Run.within_pure, Run.pure_bind]
      exact hnext
  exact hfrom rows [] rfl

end Direct
end TreeCodec
