import TreeCodec.Convert.Direct
import TreeCodec.Proofs.Gives
import TreeCodec.Proofs.Shape
import TreeCodec.Proofs.ValueParts

/-!
What is loaded as a type is a value of the type.

Every rule builds a value of its own type, and hooks have to. Nothing is said of the parts: how a
value is built has checked them.
-/
namespace TreeCodec

-- Load hooks that give values of their types.
def Hooks.Typed (hooks : Hooks) : Prop :=
  ∀ t h x v, hooks.load? t = some h → h x = .ok v → v.ty = t

-- A run that ends with a value of a type, if it ends with a value.
def Run.OfType (x : Run Value) (t : Ty) : Prop :=
  ∀ v, x.outcome = .done v → v.ty = t

namespace Run.OfType

variable {α : Type} {t : Ty}

theorem pure {v : Value} (h : v.ty = t) : (Pure.pure v : Run Value).OfType t := by
  rintro _ ⟨⟩
  exact h

theorem bind {x : Run α} {f : α → Run Value} (h : ∀ a, (f a).OfType t) : (x >>= f).OfType t := by
  intro v hv
  rw [outcome_bind] at hv
  cases hx : x.outcome with
  | done a => exact h a v (by simpa [hx, Outcome.bind] using hv)
  | failed | unfinished => simp [hx, Outcome.bind] at hv

theorem fault (f : Fault) : (Run.fault f : Run Value).OfType t :=
  nofun

theorem unfinished : (Run.unfinished : Run Value).OfType t :=
  nofun

theorem ofExcept {x : Except SchemaError Value} (h : ∀ v, x = .ok v → v.ty = t) :
    (Run.ofExcept x).OfType t := by
  cases x with
  | ok v => exact pure (h v rfl)
  | error e => exact fault _

end Run.OfType

/-! ## Scalars -/

namespace ScalarTy

variable {v : Value}

theorem ty_of_ofScalar_int {i : IntTy} {n : Int} (h : (int i).ofScalar (.int n) = .ok v) :
    v.ty = .scalar (int i) := by
  change (if i.holds n then _ else _) = _ at h
  split at h <;> cases h
  rfl

theorem ty_of_ofScalar_float {f : FloatTy} {x : Double}
    (h : (float f).ofScalar (.float x) = .ok v) : v.ty = .scalar (float f) := by
  change (if _ then _ else _) = _ at h
  split at h <;> cases h
  rfl

-- A number of another kind is made one of the kind of the type first.
theorem ty_of_ofScalar {s : ScalarTy} {x : Scalar} (h : s.ofScalar x = .ok v) :
    v.ty = .scalar s := by
  unfold ofScalar at h
  split at h
  case h_1 | h_2 | h_9 | h_10 => cases h; rfl
  case h_3 => split at h <;> cases h; rfl
  case h_4 | h_5 => exact ty_of_ofScalar_int h
  case h_6 | h_7 | h_8 => exact ty_of_ofScalar_float h
  case h_11 => nomatch h

end ScalarTy

/-! ## Rules -/

namespace Load

variable {S : Schema} {rule : Rule} {t u : Ty} {input : Option Tree}

theorem scalar_ofType (s : ScalarTy) : (scalar s input).OfType (.scalar s) := by
  refine .bind fun x => ?_
  split
  case h_1 => exact .ofExcept fun _ => ScalarTy.ty_of_ofScalar
  case h_2 => exact .fault _

theorem tree_ofType (t : Ty) : (tree t input).OfType t :=
  .bind fun _ => .pure rfl

theorem hook_ofType {h : LoadHook} (hh : ∀ x v, h x = .ok v → v.ty = t) :
    (hook h input).OfType t := by
  refine .bind fun x => ?_
  split
  case h_1 v hv => exact .pure (hh x v hv)
  case h_2 => exact .fault _

theorem optional_ofType : (optional S t rule input).OfType (.optional t) := by
  unfold optional
  split
  case h_1 | h_2 => exact .pure rfl
  case h_3 =>
    refine .bind fun v => .ofExcept fun w hw => ?_
    have ⟨hv, hw⟩ := Schema.wrapSome_eq_ok_iff.mp hw
    rw [hw, Value.ty, hv]

theorem boxed_ofType : (boxed S t rule input).OfType (.boxed t) := by
  refine .bind fun v => .ofExcept fun w hw => ?_
  have ⟨hv, hw⟩ := Schema.wrapBox_eq_ok_iff.mp hw
  rw [hw, Value.ty, hv]

theorem list_ofType (k : ListKind) : (list S (.list k t) t rule input).OfType (.list k t) := by
  refine .bind fun x => ?_
  split
  case h_1 =>
    refine .bind fun vs => .ofExcept fun w hw => ?_
    obtain ⟨_, _, _, ⟨⟩, rfl⟩ := Schema.buildList_eq_ok_iff.mp hw
    rfl
  case h_2 => exact .fault _

theorem map_ofType (kind : MapKind) {rule' : Rule} :
    (map S (.map kind t u) kind t u rule rule' input).OfType (.map kind t u) := by
  refine .bind fun x => ?_
  split
  case h_1 =>
    refine .bind fun es => .ofExcept fun w hw => ?_
    obtain ⟨_, _, rfl⟩ := Schema.buildMap_eq_ok_iff.mp hw
    rfl
  case h_2 => exact .fault _

theorem outcome_firstOf_cons (t : Ty) (variants : List Variant) (x : Tree) (i : Nat) (rule : Rule)
    (rules : List Rule) :
    (firstOf S t variants x i (rule :: rules)).outcome =
      match (rule (some x)).outcome with
      | .done w => (Run.ofExcept (S.wrapVariant t variants i w)).outcome
      | .failed _ => (firstOf S t variants x (i + 1) rules).outcome
      | .unfinished => .unfinished := by
  rw [firstOf]
  cases (rule (some x)).outcome <;> rfl

theorem firstOf_ofType {id : String} {variants : List Variant} {x : Tree} {rules : List Rule}
    (i : Nat) : (firstOf S (.declared id) variants x i rules).OfType (.declared id) := by
  induction rules generalizing i with
  | nil => exact .fault _
  | cons rule rules ih =>
    intro v hv
    rw [outcome_firstOf_cons] at hv
    cases hw : (rule (some x)).outcome with
    | done w =>
      rw [hw, ← Run.gives_eq_iff, Run.gives_ofExcept] at hv
      obtain ⟨_, hv, rfl⟩ := hv
      obtain ⟨_, _, _, rfl⟩ := Schema.wrapVariant_eq_ok_iff.mp hv
      rfl
    | failed => exact ih (i + 1) v (by simpa only [hw] using hv)
    | unfinished => simp [hw] at hv

theorem union_ofType {id : String} {variants : List Variant} {rules : List Rule} :
    (union S (.declared id) variants rules input).OfType (.declared id) :=
  .bind fun _ => firstOf_ofType 0

end Load

/-! ## Types -/

theorem Schema.ty_of_construct {S : Schema} {t : Ty} {vs : List Value} {v : Value}
    (h : S.construct t vs = .ok v) : v.ty = t := by
  rcases Schema.construct_eq_ok_iff.mp h with ⟨id, _, _, rfl, _, _, rfl⟩ | ⟨ts, hs, hts, rfl⟩
  case inl => rfl
  case inr =>
    rw [Value.ty, Value.tyList_eq_map, hts]
    exact (Schema.eq_tuple_of_shape hs).symm

namespace Direct

variable {S : Schema} {hooks : Hooks} {options : Options} {input : Option Tree}

theorem loadTuple_ofType {rules : List Load.Rule} {t : Ty} :
    (loadTuple S t rules input).OfType t :=
  .bind fun _ => .bind fun _ => .ofExcept fun _ => Schema.ty_of_construct

theorem loadMapping_ofType {t : Ty} {fields : List (Field × Load.Rule)} :
    (loadMapping S options t fields input).OfType t := by
  refine .bind fun _ => ?_
  split
  case isTrue =>
    exact .bind fun _ => .bind fun _ => .ofExcept fun _ => Schema.ty_of_construct
  case isFalse => exact .bind fun _ => .ofExcept fun _ => Schema.ty_of_construct

theorem loadSequence_ofType {t : Ty} {fields : List (Field × Load.Rule)} :
    (loadSequence S t fields input).OfType t :=
  .bind fun _ => .bind fun _ => .ofExcept fun _ => Schema.ty_of_construct

theorem loadDeclared_ofType {declared : String → Load.Rule} (id : String) :
    (loadDeclared S hooks options declared id input).OfType (.declared id) := by
  unfold loadDeclared
  cases hs : S.shape (.declared id) with
  | record fields positional =>
    cases positional
    · exact loadMapping_ofType
    · exact loadSequence_ofType
  | union => exact Load.union_ofType
  | dynamic => exact Load.tree_ofType _
  | _ => exact .unfinished

theorem loadWithin_ofType (n : Nat) (id : String) :
    (loadWithin S hooks options n id input).OfType (.declared id) := by
  cases n with
  | zero => exact .unfinished
  | succ n => exact loadDeclared_ofType id

variable (hh : hooks.Typed)
include hh

theorem loadHooked_ofType {t : Ty} {rule : Load.Rule}
    (h : (rule input).OfType t) : (loadHooked hooks t rule input).OfType t := by
  unfold loadHooked
  cases hhook : hooks.load? t with
  | none => exact h
  | some hook => exact Load.hook_ofType fun x v hv => hh t hook x v hhook hv

-- Only the outermost rule counts.
theorem load_ofType (n : Nat) (t : Ty) : (load S hooks options n t input).OfType t := by
  unfold load
  cases t <;> refine loadHooked_ofType hh ?_
  case scalar s => exact Load.scalar_ofType s
  case dynamic => exact Load.tree_ofType _
  case optional => exact Load.optional_ofType
  case boxed => exact Load.boxed_ofType
  case list k t => exact Load.list_ofType k
  case map kind t u => exact Load.map_ofType kind
  case tuple => exact loadTuple_ofType
  case declared id => exact loadWithin_ofType n id

end Direct
end TreeCodec
