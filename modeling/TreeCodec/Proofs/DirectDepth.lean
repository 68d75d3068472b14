import TreeCodec.Proofs.Target

/-!
Direct conversion that nests more declared types goes on where one that nests fewer was cut off.
-/
namespace TreeCodec.Direct

variable {S : Schema} {hooks : Hooks} {options : Options}

section Load

variable {declared declared' : String → Load.Rule}

mutual

theorem loadType_mono (h : ∀ id, (declared id).Below (declared' id)) : ∀ t,
    (loadType S hooks declared t).Below (loadType S hooks declared' t)
  | .scalar _ | .dynamic => .refl _
  | .optional t => loadHooked_mono <| Load.optional_mono (loadType_mono h t)
  | .boxed t => loadHooked_mono <| Load.boxed_mono (loadType_mono h t)
  | .list _ t => loadHooked_mono <| Load.list_mono (loadType_mono h t)
  | .map _ t u => loadHooked_mono <| Load.map_mono (loadType_mono h t) (loadType_mono h u)
  | .tuple ts => loadHooked_mono <| loadTuple_mono (loadTypes_mono h ts)
  | .declared id => loadHooked_mono (h id)

theorem loadTypes_mono (h : ∀ id, (declared id).Below (declared' id)) : ∀ ts,
    List.Forall₂ Load.Rule.Below (loadTypes S hooks declared ts) (loadTypes S hooks declared' ts)
  | [] => .nil
  | t :: ts => .cons (loadType_mono h t) (loadTypes_mono h ts)

end

theorem loadTypes_eq_map : ∀ ts, loadTypes S hooks declared ts = ts.map (loadType S hooks declared)
  | [] => rfl
  | _ :: ts => by rw [loadTypes, loadTypes_eq_map ts, List.map_cons]

theorem loadDeclared_mono (h : ∀ id, (declared id).Below (declared' id)) (id : String) :
    (loadDeclared S hooks options declared id).Below
      (loadDeclared S hooks options declared' id) := by
  have hf : ∀ fields : List Field, FieldsBelow
      (fields.map fun f => (f, loadType S hooks declared f.ty))
      (fields.map fun f => (f, loadType S hooks declared' f.ty)) :=
    fun fields => fieldsBelow_map fun f _ => loadType_mono h f.ty
  cases hs : S.shape (.declared id) <;> simp only [loadDeclared, hs]
  case record fields positional =>
    cases positional
    · exact loadMapping_mono (hf fields)
    · exact loadSequence_mono (hf fields)
  case union variants =>
    exact Load.union_mono <| forall₂_maps fun _ _ => loadType_mono h _
  all_goals exact .refl _

theorem loadWithin_mono (d : Nat) (id : String) :
    (loadWithin S hooks options d id).Below (loadWithin S hooks options (d + 1) id) := by
  induction d generalizing id with
  | zero => exact fun _ => .inl rfl
  | succ d ih => exact loadDeclared_mono ih id

theorem load_mono {d d' : Nat} (h : d ≤ d') (t : Ty) :
    (load S hooks options d t).Below (load S hooks options d' t) := by
  induction h with
  | refl => exact .refl _
  | step _ ih => exact ih.trans <| loadType_mono (loadWithin_mono _) t

theorem loadHooked_idem (t : Ty) (rule : Load.Rule) :
    loadHooked hooks t (loadHooked hooks t rule) = loadHooked hooks t rule := by
  unfold loadHooked
  cases hooks.load? t <;> rfl

end Load

section Dump

variable {declared declared' : String → Dump.Rule}

mutual

theorem dumpType_mono (h : ∀ id, (declared id).Below (declared' id)) : ∀ t,
    (dumpType S hooks declared t).Below (dumpType S hooks declared' t)
  | .scalar _ | .dynamic => .refl _
  | .optional t => dumpHooked_mono <| Dump.optional_mono (dumpType_mono h t)
  | .boxed t => dumpHooked_mono <| Dump.boxed_mono (dumpType_mono h t)
  | .list _ t => dumpHooked_mono <| Dump.list_mono (dumpType_mono h t)
  | .map _ t u => dumpHooked_mono <| Dump.map_mono (dumpType_mono h t) (dumpType_mono h u)
  | .tuple ts => dumpHooked_mono <| dumpTuple_mono (dumpTypes_mono h ts)
  | .declared id => dumpHooked_mono (h id)

theorem dumpTypes_mono (h : ∀ id, (declared id).Below (declared' id)) : ∀ ts,
    List.Forall₂ Dump.Rule.Below (dumpTypes S hooks declared ts) (dumpTypes S hooks declared' ts)
  | [] => .nil
  | t :: ts => .cons (dumpType_mono h t) (dumpTypes_mono h ts)

end

theorem dumpTypes_eq_map : ∀ ts, dumpTypes S hooks declared ts = ts.map (dumpType S hooks declared)
  | [] => rfl
  | _ :: ts => by rw [dumpTypes, dumpTypes_eq_map ts, List.map_cons]

theorem dumpDeclared_mono (h : ∀ id, (declared id).Below (declared' id)) (id : String) :
    (dumpDeclared S hooks options declared id).Below
      (dumpDeclared S hooks options declared' id) := by
  have hf : ∀ fields : List Field, DumpsBelow
      (fields.map fun f => (f, dumpType S hooks declared f.ty))
      (fields.map fun f => (f, dumpType S hooks declared' f.ty)) :=
    fun fields => dumpsBelow_map fun f _ => dumpType_mono h f.ty
  cases hs : S.shape (.declared id) <;> simp only [dumpDeclared, hs]
  case record fields positional =>
    cases positional
    · exact fun v => dumpMapping_mono (hf fields) 0 []
    · exact dumpSequence_mono (hf fields)
  case union variants =>
    exact Dump.union_mono <| forall₂_maps fun _ _ => dumpType_mono h _
  all_goals exact .refl _

theorem dumpWithin_mono (d : Nat) (id : String) :
    (dumpWithin S hooks options d id).Below (dumpWithin S hooks options (d + 1) id) := by
  induction d generalizing id with
  | zero => exact fun _ => .inl rfl
  | succ d ih => exact dumpDeclared_mono ih id

theorem dump_mono {d d' : Nat} (h : d ≤ d') (t : Ty) :
    (dump S hooks options d t).Below (dump S hooks options d' t) := by
  induction h with
  | refl => exact .refl _
  | step _ ih => exact ih.trans <| dumpType_mono (dumpWithin_mono _) t

theorem dumpHooked_idem (t : Ty) (rule : Dump.Rule) :
    dumpHooked hooks t (dumpHooked hooks t rule) = dumpHooked hooks t rule := by
  unfold dumpHooked
  cases hooks.dump? t <;> rfl

end Dump
end TreeCodec.Direct
