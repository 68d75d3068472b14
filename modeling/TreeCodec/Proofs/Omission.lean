import TreeCodec.Proofs.DirectRoundTrip
import TreeCodec.Proofs.GivenBack

/-!
Values that are dumped without their nulls and loaded again directly.
-/
namespace TreeCodec

-- A value and the tree that it is dumped as.
structure Written where
  value : Value
  tree  : Tree

namespace Written

variable (S : Schema)

-- A null is absent or dumped as null, and nothing else is. What is dumped is loaded as the value if
-- no null in it is loaded as a default.
structure Returns (dump : Dump.Rule) (load : Load.Rule) (w : Written) : Prop where
  dumped : dump w.value = pure w.tree
  null   : w.tree = .null ↔ w.value.isNull
  absent : w.value.isNull → load none = pure w.value
  back   : (load (some w.tree)).Gives w.value.Same ↔ S.NullsKept w.value

variable {S} {dump : Dump.Rule} {load : Load.Rule} {w : Written} {t : Ty}

theorem returns_none :
    Returns S (Dump.optional S (.optional t) dump) (Load.optional S t load) ⟨.none t, .null⟩ where
  dumped   := Dump.optional_none
  null     := by simp [Value.isNull]
  absent _ := rfl
  back     := ⟨fun _ => .of_isNull rfl, fun _ => Run.gives_pure.mpr (.refl _)⟩

theorem Returns.some (h : w.Returns S dump load) (ht : w.value.ty = t) (hn : ¬w.value.isNull) :
    Returns S (Dump.optional S (.optional t) dump) (Load.optional S t load)
      ⟨.some w.value, w.tree⟩ where
  dumped := (Dump.optional_some ht).trans h.dumped
  null   := by simp [h.null, hn, Value.isNull]
  absent := nofun
  back   := by
    rw [Load.optional_gives (mt h.null.mp hn) ht, h.back, Schema.nullsKept_some]

theorem Returns.boxed (h : w.Returns S dump load) (ht : w.value.ty = t) :
    Returns S (Dump.boxed S (.boxed t) dump) (Load.boxed S t load) ⟨.boxed w.value, w.tree⟩ where
  dumped    := (Dump.boxed_eq ht).trans h.dumped
  null      := h.null
  absent hn := by
    rw [Load.boxed, h.absent hn, Run.pure_bind, Schema.wrapBox_eq_ok_iff.mpr ⟨ht, rfl⟩,
      Run.ofExcept_ok]
  back      := by
    rw [Load.boxed_gives ht, h.back, Schema.nullsKept_boxed]

theorem returns_scalar {s : ScalarTy} {v : Value} (h : S.HasType (.scalar s) v)
    (hs : ∀ f, s ≠ .float f) :
    ∃ w : Written, w.value = v ∧ w.Returns S (Dump.scalar s) (Load.scalar s) := by
  have hdoubles : ∀ x ∈ v.doubles, x.isFinite := by
    cases h with
    | single | double => exact absurd rfl (hs _)
    | _ => nofun
  have ⟨tree, hdump, hload, hnull⟩ := Schema.scalar_undone h (hs _) hdoubles
  have hn : ¬v.isNull := by cases h <;> nofun
  refine ⟨⟨v, tree⟩, rfl, hdump, by simp [hnull, hn], fun h => absurd h hn, ?_⟩
  rw [hload, Run.gives_pure]
  exact iff_of_true (.refl v) (Schema.nullsKept_scalar h)

theorem returns_list {ws : List Written} {k : ListKind}
    (h : ∀ w ∈ ws, w.Returns S dump load ∧ w.value.ty = t) :
    Returns S (Dump.list S (.list k t) dump) (Load.list S (.list k t) t load)
      ⟨.list k t (ws.map value), .array (ws.map tree)⟩ where
  dumped := Dump.list_eq fun w hw => (h w hw).left.dumped
  null   := by simp [Value.isNull]
  absent := nofun
  back   := by
    rw [Load.list_gives fun w hw => (h w hw).right, Schema.nullsKept_list, List.forall_mem_map]
    exact forall₂_congr fun w hw => (h w hw).left.back

end Written

-- An entry of a map, with the text that the key is written as.
structure WrittenEntry where
  key  : Value
  name : String
  part : Written

theorem WrittenEntry.returns_map {S : Schema} {kind : MapKind} {s : ScalarTy} {u : Ty}
    {dumpKey dump : Dump.Rule} {loadKey load : Load.Rule} {rows : List WrittenEntry}
    (hdump : ∀ r ∈ rows, ∃ tree, dumpKey r.key = pure tree ∧ Dump.keyText tree = pure r.name)
    (hload : ∀ r ∈ rows, loadKey (some (.text r.name)) = pure r.key)
    (hs : ∀ r ∈ rows, S.HasType (.scalar s) r.key) (ha : S.KeysApart kind (rows.map key))
    (h : ∀ r ∈ rows, r.part.Returns S dump load ∧ r.part.value.ty = u) :
    Written.Returns S (Dump.map S (.map kind (.scalar s) u) kind dumpKey dump)
      (Load.map S (.map kind (.scalar s) u) kind (.scalar s) u loadKey load)
      ⟨.map kind (.scalar s) u (rows.map fun r => (r.key, r.part.value)),
        .object ((Dump.written kind name rows).map fun r => (r.name, r.part.tree))⟩ where
  dumped := by
    have hn := Dump.nodup_names hload (ha.nodup (List.forall_mem_map.mpr hs))
    exact Dump.map_eq hdump (fun r hr => (h r hr).left.dumped) hn
  null   := by simp [Value.isNull]
  absent := nofun
  back   := by
    rw [Load.map_gives hload hs (fun r hr => (h r hr).right) ha,
      Schema.nullsKept_map (List.forall_mem_map.mpr hs), List.forall_mem_map]
    exact forall₂_congr fun r hr => (h r hr).left.back

section Fields

variable {S : Schema} {dump : Ty → Dump.Rule} {load : Ty → Load.Rule}

theorem Written.returns_tuple {rows : List (Ty × Written)}
    (h : ∀ r ∈ rows, r.2.Returns S (dump r.1) (load r.1) ∧ r.2.value.ty = r.1) :
    Returns S (Direct.dumpTuple S (.tuple (rows.map Prod.fst)) ((rows.map Prod.fst).map dump))
      (Direct.loadTuple S (.tuple (rows.map Prod.fst)) ((rows.map Prod.fst).map load))
      ⟨.tuple (rows.map fun r => r.2.value), .array (rows.map fun r => r.2.tree)⟩ where
  dumped := Direct.dumpTuple_eq (fun r hr => (h r hr).right) fun r hr => (h r hr).left.dumped
  null   := by simp [Value.isNull]
  absent := nofun
  back   := by
    rw [Direct.loadTuple_gives fun r hr => (h r hr).right, Schema.nullsKept_tuple,
      List.forall_mem_map]
    exact forall₂_congr fun r hr => (h r hr).left.back

variable {id : String} {rows : List (Field × Written)}

theorem Written.returns_sequence (hs : S.shape (.declared id) = .record (rows.map Prod.fst) true)
    (h : ∀ r ∈ rows, r.2.Returns S (dump r.1.ty) (load r.1.ty) ∧ r.2.value.ty = r.1.ty) :
    Returns S
      (Direct.dumpSequence S (.declared id) ((rows.map Prod.fst).map fun f => (f, dump f.ty)))
      (Direct.loadSequence S (.declared id) ((rows.map Prod.fst).map fun f => (f, load f.ty)))
      ⟨.record id (rows.map fun r => r.2.value), .array (rows.map fun r => r.2.tree)⟩ where
  dumped := Direct.dumpSequence_eq fun r hr => (h r hr).left.dumped
  null   := by simp [Value.isNull]
  absent := nofun
  back   := by
    rw [Direct.loadSequence_gives hs fun r hr => (h r hr).right, Schema.nullsKept_sequence hs,
      List.forall_mem_map]
    exact forall₂_congr fun r hr => (h r hr).left.back

-- A null that was left out is given back as far as the default of its field lets it.
theorem Written.Returns.field {w : Written} {f : Field} (h : w.Returns S (dump f.ty) (load f.ty)) :
    (Direct.loadPart (load f.ty) f.default
        (pure (if true && w.tree = .null then none else Option.some w.tree))).Gives w.value.Same ↔
      f.Keeps w.value ∧ S.NullsKept w.value := by
  by_cases hn : w.value.isNull
  case pos =>
    rw [and_iff_left (.of_isNull hn)]
    simp only [h.null.mpr hn, Field.Keeps, hn]
    cases hd : f.default with
    | none => simp [Direct.loadPart, h.absent hn, Value.Same.refl]
    | some d => simp [Direct.loadPart]
  case neg =>
    have hkeeps : f.Keeps w.value := fun h => absurd h hn
    have hfound : ¬(true && w.tree = .null) := by simp [h.null, hn]
    rw [if_neg hfound, Direct.loadPart_found, h.back, and_iff_right hkeeps]

theorem Written.returns_mapping {options options' : Options} (ho : options.omitNull = true)
    (hs : S.shape (.declared id) = .record (rows.map Prod.fst) false)
    (hn : ((rows.map Prod.fst).map Field.key).Nodup)
    (h : ∀ r ∈ rows, r.2.Returns S (dump r.1.ty) (load r.1.ty) ∧ r.2.value.ty = r.1.ty) :
    Returns S
      (fun v => Direct.dumpMapping S options (.declared id) v 0 []
        ((rows.map Prod.fst).map fun f => (f, dump f.ty)))
      (Direct.loadMapping S options' (.declared id)
        ((rows.map Prod.fst).map fun f => (f, load f.ty)))
      ⟨.record id (rows.map fun r => r.2.value),
        .object ((Direct.kept options (fun r => r.2.tree) rows).map fun r =>
          (r.1.key, r.2.tree))⟩ where
  dumped := by
    rw [List.map_map] at hn
    exact Direct.dumpMapping_eq (fun r hr => (h r hr).left.dumped) hn
  null   := by simp [Value.isNull]
  absent := nofun
  back   := by
    rw [Direct.loadMapping_gives hs hn fun r hr => (h r hr).right, Schema.nullsKept_mapping hs,
      List.zip_map', List.forall_mem_map, List.forall_mem_map, ← forall₂_and]
    simp only [ho]
    exact forall₂_congr fun r hr => (h r hr).left.field

end Fields
end TreeCodec
