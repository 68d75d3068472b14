import TreeCodec.Proofs.Lists
import TreeCodec.Value.Build

/-!
The parts of values: how they are read, and how large they are.
-/
namespace TreeCodec

namespace Value

theorem size_pos (v : Value) : 0 < v.size := by
  cases v <;> simp [size]

theorem size_le_sizeList {v : Value} {vs : List Value} (h : v ∈ vs) : v.size ≤ sizeList vs := by
  induction vs with
  | nil => nomatch h
  | cons w vs ih =>
    simp only [sizeList]
    rcases List.mem_cons.mp h with rfl | h
    · omega
    · have := ih h
      omega

theorem size_le_sizeEntries {k v : Value} {es : List (Value × Value)} (h : (k, v) ∈ es) :
    k.size + v.size ≤ sizeEntries es := by
  induction es with
  | nil => nomatch h
  | cons e es ih =>
    obtain ⟨l, w⟩ := e
    simp only [sizeEntries]
    rcases List.mem_cons.mp h with h | h
    · cases h
      omega
    · have := ih h
      omega

end Value

namespace Schema

variable {S : Schema} {t : Ty} {v w : Value}

theorem optionValue_eq_ok_iff {o : Option Value} :
    S.optionValue t v = .ok o ↔ v.ty = t ∧ match o with
      | some w => v = .some w
      | none => ∃ u, v = .none u := by
  unfold optionValue
  by_cases h : v.ty = t
  case neg => simp [require, h, bind, Except.bind]
  case pos =>
    simp only [require, h, if_true]
    cases v <;> cases o <;> simp [bind, Except.bind, pure, Except.pure]

theorem boxValue_eq_ok_iff : S.boxValue t v = .ok w ↔ v.ty = t ∧ v = .boxed w := by
  unfold boxValue
  by_cases h : v.ty = t
  case neg => simp [require, h, bind, Except.bind]
  case pos =>
    simp only [require, h, if_true]
    cases v <;> simp [bind, Except.bind, pure, Except.pure]

theorem wrapSome_eq_ok_iff : S.wrapSome t v = .ok w ↔ v.ty = t ∧ w = .some v := by
  by_cases h : v.ty = t <;> simp [wrapSome, require, h, Except.map, eq_comm]

theorem wrapBox_eq_ok_iff : S.wrapBox t v = .ok w ↔ v.ty = t ∧ w = .boxed v := by
  by_cases h : v.ty = t <;> simp [wrapBox, require, h, Except.map, eq_comm]

theorem toTree_eq_ok_iff {x : Tree} : S.toTree t v = .ok x ↔ v = .tree t x := by
  unfold toTree
  by_cases h : v.ty = t
  case neg =>
    have hv : v ≠ .tree t x := fun he => h (he ▸ rfl)
    simp [require, h, hv, bind, Except.bind]
  case pos =>
    simp only [require, h, if_true]
    cases v with
    | tree u y =>
      obtain rfl : u = t := h
      simp [bind, Except.bind, pure, Except.pure]
    | _ => simp [bind, Except.bind]

theorem listItems_eq_ok_iff {vs : List Value} :
    S.listItems t v = .ok vs ↔ v.ty = t ∧ ∃ k u, v = .list k u vs := by
  unfold listItems
  by_cases h : v.ty = t
  case neg => simp [require, h, bind, Except.bind]
  case pos =>
    simp only [require, h, if_true]
    cases v <;> simp [bind, Except.bind, pure, Except.pure]

theorem mapEntries_eq_ok_iff {es : List (Value × Value)} :
    S.mapEntries t v = .ok es ↔ v.ty = t ∧ ∃ k u u', v = .map k u u' es := by
  unfold mapEntries
  by_cases h : v.ty = t
  case neg => simp [require, h, bind, Except.bind]
  case pos =>
    simp only [require, h, if_true]
    cases v <;> simp [bind, Except.bind, pure, Except.pure]

theorem activeVariant_eq_ok_iff {i : Nat} :
    S.activeVariant t v = .ok (i, w) ↔ v.ty = t ∧ ∃ id, v = .union id i w := by
  unfold activeVariant
  by_cases h : v.ty = t
  case neg => simp [require, h, bind, Except.bind]
  case pos =>
    simp only [require, h, if_true]
    cases v <;> simp [bind, Except.bind, pure, Except.pure]

theorem wrapVariant_eq_ok_iff {id : String} {variants : List Variant} {i : Nat} :
    S.wrapVariant (.declared id) variants i v = .ok w ↔
      ∃ variant, variants[i]? = some variant ∧ v.ty = variant.ty ∧ w = .union id i v := by
  unfold wrapVariant VariantValue.take
  cases variants[i]? with
  | none => simp
  | some variant =>
    by_cases h : v.ty = variant.ty
    case pos => simp [h, Except.map, eq_comm]
    case neg => simp [h, Except.map]

theorem getField_eq_ok_iff {i : Nat} {o : Option Value} :
    S.getField t i v = .ok o ↔ v.ty = t ∧ ∃ id vs, v = .record id vs ∧ vs[i]? = o := by
  unfold getField
  by_cases h : v.ty = t
  case neg => simp [require, h, bind, Except.bind]
  case pos =>
    simp only [require, h, if_true]
    cases v with
    | record id vs =>
      simp only [bind, Except.bind, pure, Except.pure, Except.ok.injEq, true_and]
      refine ⟨fun h => ⟨id, vs, rfl, h⟩, ?_⟩
      rintro ⟨_, _, he, h⟩
      cases he
      exact h
    | _ => simp [bind, Except.bind]

theorem getElement_eq_ok_iff {i : Nat} {o : Option Value} :
    S.getElement t i v = .ok o ↔ v.ty = t ∧ ∃ vs, v = .tuple vs ∧ vs[i]? = o := by
  unfold getElement
  by_cases h : v.ty = t
  case neg => simp [require, h, bind, Except.bind]
  case pos =>
    simp only [require, h, if_true]
    cases v <;> simp [bind, Except.bind, pure, Except.pure]

end Schema

section Construct

variable {S : Schema}

theorem FieldValues.takeAll_of_types (owner : String) (values : List Value) (supplied taken : Nat) :
    takeAll S ⟨owner, values, supplied, taken⟩ (values.map Value.ty) =
      .ok (values, ⟨owner, [], supplied, taken + values.length⟩) := by
  induction values generalizing taken with
  | nil => rfl
  | cons v vs ih =>
    simp only [List.map_cons, takeAll, take, if_true, List.tail_cons, ih, Except.map,
      List.length_cons]
    congr 3
    omega

theorem FieldValues.collect_of_types {owner : String} {types : List Ty} {values : List Value}
    (h : values.map Value.ty = types) : collect S owner types values = .ok values := by
  subst h
  have hfinish : finish ⟨owner, [], values.length, 0 + values.length⟩ = .ok () :=
    if_neg (by simp)
  simp only [collect, new, takeAll_of_types, bind, Except.bind, hfinish]
  rfl

theorem Schema.construct_record {id : String} {fields : List Field} {positional : Bool}
    {vs : List Value} (hs : S.shape (.declared id) = .record fields positional)
    (h : vs.map Value.ty = fields.map Field.ty) :
    S.construct (.declared id) vs = .ok (.record id vs) := by
  simp only [construct, hs, buildRecord, FieldValues.collect_of_types h]
  rfl

theorem Schema.construct_tuple {ts : List Ty} {vs : List Value} (h : vs.map Value.ty = ts) :
    S.construct (.tuple ts) vs = .ok (.tuple vs) := by
  simp only [construct, shape, buildTuple, FieldValues.collect_of_types h]
  rfl

namespace FieldValues

theorem takeAll_eq_ok {types : List Ty} {vs : List Value} {fs rest : FieldValues}
    (h : fs.takeAll S types = .ok (vs, rest)) :
    fs.values = vs ++ rest.values ∧ vs.map Value.ty = types ∧ rest.taken = fs.taken + vs.length ∧
      rest.supplied = fs.supplied := by
  induction types generalizing fs vs with
  | nil =>
    cases h
    simp
  | cons t ts ih =>
    unfold takeAll take at h
    obtain ⟨owner, values, supplied, taken⟩ := fs
    cases values with
    | nil => simp at h
    | cons v values =>
      by_cases hv : v.ty = t
      case neg => simp [hv] at h
      case pos =>
        simp only [hv, if_true] at h
        cases hts : takeAll S ⟨owner, values, supplied, taken + 1⟩ ts with
        | error e => simp [hts, Except.map] at h
        | ok r =>
          simp only [List.tail_cons, hts, Except.map, Except.ok.injEq, Prod.mk.injEq] at h
          obtain ⟨rfl, rfl⟩ := h
          have ⟨hvalues, htypes, htaken, hsupplied⟩ := ih hts
          refine ⟨congrArg (v :: ·) hvalues, by simp [hv, htypes], ?_, hsupplied⟩
          simp only [List.length_cons] at htaken ⊢
          omega

theorem collect_eq_ok_iff {owner : String} {types : List Ty} {values vs : List Value} :
    collect S owner types values = .ok vs ↔ values.map Value.ty = types ∧ vs = values := by
  constructor
  case mpr =>
    rintro ⟨h, rfl⟩
    exact collect_of_types h
  case mp =>
    intro h
    unfold collect at h
    cases ht : (new owner values).takeAll S types with
    | error e => simp [ht, bind, Except.bind] at h
    | ok r =>
      obtain ⟨ws, rest⟩ := r
      have ⟨hvalues, htypes, htaken, hsupplied⟩ := takeAll_eq_ok ht
      simp only [ht, bind, Except.bind, finish] at h
      split at h
      case h_1 => nomatch h
      case h_2 hf =>
        cases h
        split at hf
        case isTrue => nomatch hf
        case isFalse hlt =>
          have hrest : rest.values = [] := by
            have := congrArg List.length hvalues
            simp only [new, List.length_append] at this htaken hsupplied hlt
            exact List.length_eq_zero_iff.mp (by omega)
          simp only [new, hrest, List.append_nil] at hvalues
          exact ⟨hvalues ▸ htypes, hvalues.symm⟩

theorem map_collect_eq_ok_iff {owner : String} {types : List Ty} {values : List Value}
    {make : List Value → Value} {w : Value} :
    (collect S owner types values).map make = .ok w ↔
      values.map Value.ty = types ∧ w = make values := by
  cases hc : collect S owner types values with
  | error e =>
    have hn : values.map Value.ty ≠ types := fun h => by simp [collect_of_types h] at hc
    simp [Except.map, hn]
  | ok vs =>
    obtain ⟨hv, rfl⟩ := collect_eq_ok_iff.mp hc
    simp [Except.map, hv, eq_comm]

end FieldValues

namespace Schema

variable {t : Ty} {w : Value}

theorem buildList_eq_ok_iff {item : Ty} {vs : List Value} :
    S.buildList t item vs = .ok w ↔
      (∀ v ∈ vs, v.ty = item) ∧ ∃ k u, t = .list k u ∧ w = .list k item vs := by
  unfold buildList
  rw [bind_eq_ok_iff]
  simp only [mapM_eq_ok_iff fun _ _ => S.require_eq_ok_iff]
  constructor
  · rintro ⟨_, ⟨hv, rfl⟩, h⟩
    cases t <;> cases h
    exact ⟨hv, _, _, rfl, rfl⟩
  · rintro ⟨hv, _, _, rfl, rfl⟩
    exact ⟨_, ⟨hv, rfl⟩, rfl⟩

theorem buildMap_eq_ok_iff {kind : MapKind} {key value : Ty} {es : List (Value × Value)} :
    S.buildMap t kind key value es = .ok w ↔
      (∀ e ∈ es, e.1.ty = key ∧ e.2.ty = value) ∧ (∃ k a b, t = .map k a b) ∧
        w = .map kind key value (S.collect kind es) := by
  have hentry : ∀ e f : Value × Value,
      (do return (← S.require key e.1, ← S.require value e.2)) = Except.ok f ↔
        (e.1.ty = key ∧ e.2.ty = value) ∧ e = f := by
    rintro ⟨k, v⟩ ⟨l, w⟩
    simp only [bind_eq_ok_iff, require_eq_ok_iff, pure, Except.pure, Except.ok.injEq]
    constructor
    · rintro ⟨_, ⟨hk, rfl⟩, _, ⟨hv, rfl⟩, he⟩
      exact ⟨⟨hk, hv⟩, he⟩
    · rintro ⟨⟨hk, hv⟩, he⟩
      exact ⟨_, ⟨hk, rfl⟩, _, ⟨hv, rfl⟩, he⟩
  unfold buildMap
  rw [bind_eq_ok_iff]
  simp only [mapM_eq_ok_iff hentry]
  constructor
  · rintro ⟨_, ⟨he, rfl⟩, h⟩
    cases t <;> cases h
    exact ⟨he, ⟨_, _, _, rfl⟩, rfl⟩
  · rintro ⟨he, ⟨_, _, _, rfl⟩, rfl⟩
    exact ⟨_, ⟨he, rfl⟩, rfl⟩

theorem construct_eq_ok_iff {vs : List Value} :
    S.construct t vs = .ok w ↔
      (∃ id fields positional, t = .declared id ∧ S.shape t = .record fields positional ∧
        vs.map Value.ty = fields.map Field.ty ∧ w = .record id vs) ∨
      ∃ ts, S.shape t = .tuple ts ∧ vs.map Value.ty = ts ∧ w = .tuple vs := by
  unfold construct
  split
  case h_1 id fields positional hs =>
    simp only [buildRecord, FieldValues.map_collect_eq_ok_iff, hs, reduceCtorEq, false_and,
      exists_false, or_false]
    constructor
    · exact fun ⟨hv, hw⟩ => ⟨id, fields, positional, rfl, rfl, hv, hw⟩
    · rintro ⟨_, _, _, hid, hshape, hv, hw⟩
      cases hid
      cases hshape
      exact ⟨hv, hw⟩
  case h_2 ts hs =>
    simp only [buildTuple, FieldValues.map_collect_eq_ok_iff, hs, reduceCtorEq, false_and, and_false,
      exists_false, false_or, Shape.tuple.injEq, exists_eq_left']
  case h_3 htuple hrecord =>
    simp only [reduceCtorEq, false_iff]
    rintro (⟨_, _, _, ht, hs, _⟩ | ⟨_, hs, _⟩)
    · exact hrecord _ _ _ ht hs
    · exact htuple _ hs

end Schema

end Construct
end TreeCodec
