import Mathlib.Data.List.Forall2
import TreeCodec.Proofs.ValueParts

/-!
Which values a type has, and when two values are one up to the order of unordered entries.
-/
namespace TreeCodec

namespace Value

mutual

-- The doubles within a value, but for those of the trees that it keeps.
def doubles : Value → List Double
  | float _ x => [x]
  | some v | boxed v | union _ _ v => doubles v
  | list _ _ vs | tuple vs | record _ vs => doublesList vs
  | map _ _ _ es => doublesEntries es
  | _ => []

def doublesList : List Value → List Double
  | [] => []
  | v :: vs => doubles v ++ doublesList vs

def doublesEntries : List (Value × Value) → List Double
  | [] => []
  | (k, v) :: es => doubles k ++ doubles v ++ doublesEntries es

end

-- One value up to the order in which the entries of unordered maps stand.
inductive Same : Value → Value → Prop
  | refl (v : Value) : Same v v
  | some {v w : Value} : Same v w → Same (some v) (some w)
  | boxed {v w : Value} : Same v w → Same (boxed v) (boxed w)
  | list {k : ListKind} {t : Ty} {vs ws : List Value} :
    List.Forall₂ Same vs ws → Same (list k t vs) (list k t ws)
  | tuple {vs ws : List Value} : List.Forall₂ Same vs ws → Same (tuple vs) (tuple ws)
  | record {id : String} {vs ws : List Value} :
    List.Forall₂ Same vs ws → Same (record id vs) (record id ws)
  | union {id : String} {i : Nat} {v w : Value} : Same v w → Same (union id i v) (union id i w)
  | ordered {t u : Ty} {es fs : List (Value × Value)} :
    es.map Prod.fst = fs.map Prod.fst → List.Forall₂ Same (es.map Prod.snd) (fs.map Prod.snd) →
    Same (map .ordered t u es) (map .ordered t u fs)
  | unordered {t u : Ty} {es es' fs : List (Value × Value)} :
    es.Perm es' → es'.map Prod.fst = fs.map Prod.fst →
    List.Forall₂ Same (es'.map Prod.snd) (fs.map Prod.snd) →
    Same (map .unordered t u es) (map .unordered t u fs)

mutual

theorem Same.ty_eq : ∀ {v w : Value}, v.Same w → v.ty = w.ty
  | _, _, .refl _ | _, _, .list _ | _, _, .record _ | _, _, .union _ | _, _, .ordered ..
  | _, _, .unordered .. => rfl
  | _, _, .some h => congrArg Ty.optional h.ty_eq
  | _, _, .boxed h => congrArg Ty.boxed h.ty_eq
  | _, _, .tuple h => congrArg Ty.tuple (tyList_eq_of_same h)

theorem tyList_eq_of_same : ∀ {vs ws : List Value}, List.Forall₂ Same vs ws → tyList vs = tyList ws
  | _, _, .nil => rfl
  | _, _, .cons h hs => congrArg₂ List.cons h.ty_eq (tyList_eq_of_same hs)

end

theorem map_ty_eq_of_same {vs ws : List Value} (h : List.Forall₂ Same vs ws) :
    vs.map ty = ws.map ty := by
  simpa only [tyList_eq_map] using tyList_eq_of_same h

theorem doubles_subset_doublesList {v : Value} {vs : List Value} (h : v ∈ vs) :
    doubles v ⊆ doublesList vs := by
  induction vs with
  | nil => nomatch h
  | cons w vs ih =>
    rcases List.mem_cons.mp h with rfl | h
    · exact List.subset_append_left ..
    · exact List.Subset.trans (ih h) (List.subset_append_right ..)

theorem doubles_subset_doublesEntries {k v : Value} {es : List (Value × Value)} (h : (k, v) ∈ es) :
    doubles v ⊆ doublesEntries es := by
  induction es with
  | nil => nomatch h
  | cons e es ih =>
    rcases List.mem_cons.mp h with rfl | h
    · exact List.Subset.trans (List.subset_append_right ..) (List.subset_append_left ..)
    · exact List.Subset.trans (ih h) (List.subset_append_right ..)

end Value

namespace Schema

variable (S : Schema)

-- Keys of a map: different ones, and ascending ones if the map is ordered.
def KeysApart : MapKind → List Value → Prop
  | .unordered, ks => ks.Pairwise fun k l => ¬S.sameKey k l
  | .ordered, ks   => ks.Pairwise fun k l => k.order l = .lt

inductive HasType : Ty → Value → Prop
  | bool (b : Bool) : HasType (.scalar .bool) (.bool b)
  | char (c : Char) : HasType (.scalar .char) (.char c)
  | int {i : IntTy} {n : Int} : i.holds n → HasType (.scalar (.int i)) (.int i n)
  | single {x : Double} : x.toSingle = x → HasType (.scalar (.float .f32)) (.float .f32 x)
  | double (x : Double) : HasType (.scalar (.float .f64)) (.float .f64 x)
  | text (s : String) : HasType (.scalar .string) (.text s)
  | tree {t : Ty} (x : Tree) : S.shape t = .dynamic → HasType t (.tree t x)
  | none (t : Ty) : HasType (.optional t) (.none t)
  | some {t : Ty} {v : Value} : HasType t v → HasType (.optional t) (.some v)
  | boxed {t : Ty} {v : Value} : HasType t v → HasType (.boxed t) (.boxed v)
  | list {k : ListKind} {t : Ty} {vs : List Value} :
    (∀ v ∈ vs, HasType t v) → HasType (.list k t) (.list k t vs)
  | map {kind : MapKind} {t u : Ty} {es : List (Value × Value)} :
    (∀ e ∈ es, HasType t e.1) → (∀ e ∈ es, HasType u e.2) → S.KeysApart kind (es.map Prod.fst) →
    HasType (.map kind t u) (.map kind t u es)
  | tuple {ts : List Ty} {vs : List Value} :
    List.Forall₂ HasType ts vs → HasType (.tuple ts) (.tuple vs)
  | record {id : String} {fields : List Field} {positional : Bool} {vs : List Value} :
    S.shape (.declared id) = .record fields positional →
    List.Forall₂ HasType (fields.map Field.ty) vs → HasType (.declared id) (.record id vs)
  | union {id : String} {variants : List Variant} {i : Nat} {variant : Variant} {v : Value} :
    S.shape (.declared id) = .union variants → variants[i]? = some variant →
    HasType variant.ty v → HasType (.declared id) (.union id i v)

variable {S} {t : Ty} {v : Value}

mutual

theorem HasType.ty_eq : ∀ {t : Ty} {v : Value}, S.HasType t v → v.ty = t
  | _, _, .bool _ | _, _, .char _ | _, _, .int _ | _, _, .single _ | _, _, .double _
  | _, _, .text _ | _, _, .tree .. | _, _, .none _ | _, _, .list _ | _, _, .map ..
  | _, _, .record .. | _, _, .union .. => rfl
  | _, _, .some h => congrArg Ty.optional h.ty_eq
  | _, _, .boxed h => congrArg Ty.boxed h.ty_eq
  | _, _, .tuple h => congrArg Ty.tuple (tyList_eq h)

theorem tyList_eq : ∀ {ts : List Ty} {vs : List Value},
    List.Forall₂ S.HasType ts vs → Value.tyList vs = ts
  | _, _, .nil => rfl
  | _, _, .cons h hs => congrArg₂ List.cons h.ty_eq (tyList_eq hs)

end

end Schema
end TreeCodec
