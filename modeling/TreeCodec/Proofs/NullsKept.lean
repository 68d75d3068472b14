import Mathlib.Logic.Relation
import TreeCodec.Proofs.Lists
import TreeCodec.Proofs.Typing

/-!
Values that stay what they are when nulls are left out.

A null that is left out leaves a field absent, and an absent field is its default if it has one.
-/
namespace TreeCodec

namespace Value

-- Values that are dumped as null, but for those that keep a tree.
def isNull : Value → Bool
  | none _ => true
  | boxed v => v.isNull
  | _ => false

-- The values right within a value.
def parts : Value → List Value
  | some v | boxed v | union _ _ v => [v]
  | list _ _ vs | tuple vs | record _ vs => vs
  | map _ _ _ es => es.flatMap fun e => [e.1, e.2]
  | _ => []

-- The values within a value, itself included.
def Contains (v w : Value) : Prop :=
  Relation.ReflTransGen (fun v w => w ∈ v.parts) v w

theorem contains_iff {v w : Value} : v.Contains w ↔ v = w ∨ ∃ p ∈ v.parts, p.Contains w := by
  rw [Contains, Relation.ReflTransGen.cases_head_iff]
  rfl

section Same

variable {v w : Value} {vs ws : List Value}

theorem forall₂_same_refl (vs : List Value) : List.Forall₂ Same vs vs :=
  List.forall₂_same.mpr fun v _ => .refl v

theorem some_same_some : (some v).Same (some w) ↔ v.Same w := by
  refine ⟨fun h => ?_, .some⟩
  cases h with
  | refl => exact .refl v
  | some h => exact h

theorem boxed_same_boxed : (boxed v).Same (boxed w) ↔ v.Same w := by
  refine ⟨fun h => ?_, .boxed⟩
  cases h with
  | refl => exact .refl v
  | boxed h => exact h

theorem list_same_list {k : ListKind} {t : Ty} :
    (list k t vs).Same (list k t ws) ↔ List.Forall₂ Same vs ws := by
  refine ⟨fun h => ?_, .list⟩
  cases h with
  | refl => exact forall₂_same_refl vs
  | list h => exact h

theorem tuple_same_tuple : (tuple vs).Same (tuple ws) ↔ List.Forall₂ Same vs ws := by
  refine ⟨fun h => ?_, .tuple⟩
  cases h with
  | refl => exact forall₂_same_refl vs
  | tuple h => exact h

theorem record_same_record {id : String} :
    (record id vs).Same (record id ws) ↔ List.Forall₂ Same vs ws := by
  refine ⟨fun h => ?_, .record⟩
  cases h with
  | refl => exact forall₂_same_refl vs
  | record h => exact h

theorem union_same_union {id id' : String} {i j : Nat} :
    (union id i v).Same (union id' j w) ↔ id = id' ∧ i = j ∧ v.Same w := by
  constructor
  case mp =>
    intro h
    cases h with
    | refl => exact ⟨rfl, rfl, .refl v⟩
    | union h => exact ⟨rfl, rfl, h⟩
  case mpr =>
    rintro ⟨rfl, rfl, h⟩
    exact .union h

-- A map stands in the order of the entries that it is compared with.
theorem map_same_map {kind : MapKind} {t u : Ty} {es es' fs : List (Value × Value)}
    (hp : es.Perm es') (ho : kind = .ordered → es' = es) (hn : (es.map Prod.fst).Nodup)
    (hk : es'.map Prod.fst = fs.map Prod.fst) :
    (map kind t u es).Same (map kind t u fs) ↔
      List.Forall₂ Same (es'.map Prod.snd) (fs.map Prod.snd) := by
  have hn' : (es'.map Prod.fst).Nodup := (hp.map Prod.fst).nodup_iff.mp hn
  constructor
  · intro h
    cases h with
    | refl => exact eq_of_perm_of_map hn' hp.symm hk ▸ forall₂_same_refl _
    | ordered _ h => rwa [ho rfl]
    | unordered hp' hk' h => rwa [eq_of_perm_of_map hn' (hp.symm.trans hp') (hk.trans hk'.symm)]
  · intro h
    cases kind with
    | ordered => exact .ordered (ho rfl ▸ hk) (ho rfl ▸ h)
    | unordered => exact .unordered hp hk h

end Same

end Value

-- Whether a null is what the field is when it is absent. A field without a default is null then.
def Field.Keeps (f : Field) (v : Value) : Prop :=
  v.isNull → ∀ d ∈ f.default, v.Same d

namespace Schema

variable (S : Schema)

-- Every null in a record with keys is what its field is when it is absent.
def NullsKept (v : Value) : Prop :=
  ∀ id vs fields, v.Contains (.record id vs) → S.shape (.declared id) = .record fields false →
    ∀ e ∈ fields.zip vs, e.1.Keeps e.2

variable {S} {v : Value}

theorem NullsKept.part {w : Value} (h : S.NullsKept v) (hw : w ∈ v.parts) : S.NullsKept w :=
  fun id vs fields hc => h id vs fields (.head hw hc)

theorem nullsKept_iff (h : ∀ id vs, v ≠ .record id vs) :
    S.NullsKept v ↔ ∀ w ∈ v.parts, S.NullsKept w := by
  refine ⟨fun hv w hw => hv.part hw, fun hv id vs fields hc => ?_⟩
  rcases Value.contains_iff.mp hc with he | ⟨w, hw, hc⟩
  · exact absurd he (h id vs)
  · exact hv w hw id vs fields hc

theorem nullsKept_record {id : String} {vs : List Value} :
    S.NullsKept (.record id vs) ↔
      (∀ fields, S.shape (.declared id) = .record fields false →
        ∀ e ∈ fields.zip vs, e.1.Keeps e.2) ∧
      ∀ w ∈ vs, S.NullsKept w := by
  refine ⟨fun hv => ⟨fun fields => hv id vs fields .refl, fun w hw => hv.part hw⟩, ?_⟩
  rintro ⟨hself, hparts⟩ id' vs' fields hc
  rcases Value.contains_iff.mp hc with he | ⟨w, hw, hc⟩
  · cases he
    exact hself fields
  · exact hparts w hw id' vs' fields hc

theorem nullsKept_mapping {id : String} {fields : List Field} {vs : List Value}
    (hs : S.shape (.declared id) = .record fields false) :
    S.NullsKept (.record id vs) ↔
      (∀ e ∈ fields.zip vs, e.1.Keeps e.2) ∧ ∀ w ∈ vs, S.NullsKept w := by
  simp only [nullsKept_record, hs, Shape.record.injEq, and_true, forall_eq']

theorem nullsKept_sequence {id : String} {fields : List Field} {vs : List Value}
    (hs : S.shape (.declared id) = .record fields true) :
    S.NullsKept (.record id vs) ↔ ∀ w ∈ vs, S.NullsKept w := by
  simp [nullsKept_record, hs]

theorem nullsKept_some : S.NullsKept (.some v) ↔ S.NullsKept v :=
  (nullsKept_iff (by nofun)).trans List.forall_mem_singleton

theorem nullsKept_boxed : S.NullsKept (.boxed v) ↔ S.NullsKept v :=
  (nullsKept_iff (by nofun)).trans List.forall_mem_singleton

theorem nullsKept_list {k : ListKind} {t : Ty} {vs : List Value} :
    S.NullsKept (.list k t vs) ↔ ∀ v ∈ vs, S.NullsKept v :=
  nullsKept_iff (by nofun)

theorem nullsKept_tuple {vs : List Value} :
    S.NullsKept (.tuple vs) ↔ ∀ v ∈ vs, S.NullsKept v :=
  nullsKept_iff (by nofun)

theorem nullsKept_scalar {s : ScalarTy} (h : S.HasType (.scalar s) v) : S.NullsKept v := by
  cases h with
  | tree _ hs => nomatch hs
  | _ => exact (nullsKept_iff (by nofun)).mpr nofun

-- The keys of a map are scalars.
theorem nullsKept_map {kind : MapKind} {s : ScalarTy} {u : Ty} {es : List (Value × Value)}
    (hs : ∀ e ∈ es, S.HasType (.scalar s) e.1) :
    S.NullsKept (.map kind (.scalar s) u es) ↔ ∀ e ∈ es, S.NullsKept e.2 := by
  rw [nullsKept_iff (by nofun), Value.parts]
  constructor
  · exact fun h e he => h e.2 (List.mem_flatMap.mpr ⟨e, he, by simp⟩)
  · intro h w hw
    have ⟨e, he, hw⟩ := List.mem_flatMap.mp hw
    rcases List.mem_pair.mp hw with rfl | rfl
    · exact nullsKept_scalar (hs e he)
    · exact h e he

-- A null has no records in it.
theorem NullsKept.of_isNull : ∀ {v : Value}, v.isNull → S.NullsKept v
  | .none _, _ => (nullsKept_iff (by nofun)).mpr nofun
  | .boxed _, h => nullsKept_boxed.mpr (of_isNull h)

end Schema
end TreeCodec
