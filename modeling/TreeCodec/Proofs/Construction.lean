import TreeCodec.Proofs.ValueParts

/-!
Records and tuples that are built from values of any number and of any types.

The values are taken one after the other, and each has to be of the type that is declared at its
place. What is reported is the first value of a wrong type. Only if there is none, the values can be
too few or too many.
-/
namespace TreeCodec

/-! ## Values in their places -/

-- Each value with a type declared at its place is of this type.
def Fitting (types : List Ty) (values : List Value) : Prop :=
  ∀ (i : Nat) (t : Ty) (v : Value), types[i]? = some t → values[i]? = some v → v.ty = t

namespace Fitting

variable {types : List Ty} {values : List Value} {t : Ty} {v : Value} {i : Nat}

theorem cons_iff : Fitting (t :: types) (v :: values) ↔ v.ty = t ∧ Fitting types values := by
  constructor
  case mp => exact fun h => ⟨h 0 t v rfl rfl, fun i => h (i + 1)⟩
  case mpr =>
    rintro ⟨hv, h⟩ i u w hu hw
    cases i with
    | zero =>
      cases hu
      cases hw
      exact hv
    | succ i => exact h i u w hu hw

theorem map_ty_eq (h : Fitting types values) :
    (values.take types.length).map Value.ty = types.take values.length := by
  induction types generalizing values with
  | nil => simp
  | cons t types ih =>
    cases values with
    | nil => rfl
    | cons v values =>
      have ⟨hv, h⟩ := cons_iff.mp h
      simp [hv, ih h]

theorem map_ty_take {n : Nat} (h : Fitting (types.take n) values) (ht : n ≤ types.length)
    (hv : n ≤ values.length) : (values.take n).map Value.ty = types.take n := by
  have := h.map_ty_eq
  rwa [List.length_take, Nat.min_eq_left ht, List.take_take, Nat.min_eq_right hv] at this

theorem map_ty_eq_iff :
    values.map Value.ty = types ↔ values.length = types.length ∧ Fitting types values := by
  constructor
  case mp =>
    rintro rfl
    refine ⟨(List.length_map _).symm, fun i t v ht hv => ?_⟩
    rw [List.getElem?_map, hv] at ht
    exact Option.some.inj ht
  case mpr =>
    rintro ⟨hlen, h⟩
    have := h.map_ty_eq
    rwa [← hlen, List.take_length, hlen, List.take_length] at this

-- Either all values fit, or there is a first one that does not.
theorem or_exists_first (types : List Ty) (values : List Value) :
    Fitting types values ∨ ∃ i t v, types[i]? = some t ∧ values[i]? = some v ∧ v.ty ≠ t ∧
      Fitting (types.take i) values := by
  induction types generalizing values with
  | nil => exact .inl nofun
  | cons t types ih =>
    cases values with
    | nil => exact .inl nofun
    | cons v values =>
      by_cases hv : v.ty = t
      case neg => exact .inr ⟨0, t, v, rfl, rfl, hv, nofun⟩
      case pos =>
        rcases ih values with h | ⟨i, u, w, hu, hw, hne, h⟩
        · exact .inl <| cons_iff.mpr ⟨hv, h⟩
        · exact .inr ⟨i + 1, u, w, hu, hw, hne, cons_iff.mpr ⟨hv, h⟩⟩

end Fitting

/-! ## Taking values -/

namespace FieldValues

variable {S : Schema} {fs : FieldValues} {types us : List Ty} {values rest : List Value}

-- What is left when some values are taken.
def advance (fs : FieldValues) (n : Nat) : FieldValues :=
  { fs with values := fs.values.drop n, taken := fs.taken + n }

theorem take_of_ty {v : Value} (h : fs.values = v :: rest) :
    fs.take S v.ty = (.ok v, fs.advance 1) := by
  simp [take, advance, h]

-- Values of the declared types are taken, whatever follows them.
theorem takeAll_append (us : List Ty) (hv : fs.values = values ++ rest)
    (ht : values.map Value.ty = types) :
    fs.takeAll S (types ++ us) =
      ((fs.advance values.length).takeAll S us).map fun (vs, fs) => (values ++ vs, fs) := by
  subst ht
  induction values generalizing fs with
  | nil =>
    show fs.takeAll S us = _
    cases h : fs.takeAll S us <;> simp [advance, Except.map, h]
  | cons v vs ih =>
    have hrest : (fs.advance 1).values = vs ++ rest := by simp [advance, hv]
    have hadvance : (fs.advance 1).advance vs.length = fs.advance (v :: vs).length := by
      simp [advance, Nat.add_comm, Nat.add_left_comm]
    simp only [List.map_cons, List.cons_append, takeAll, take_of_ty hv, ih hrest, hadvance]
    cases (fs.advance (v :: vs).length).takeAll S us <;> rfl

section Collect

variable (owner : String) {t : Ty} {v : Value}

variable {owner} in
theorem collect_eq_error {e : SchemaError}
    (h : (new owner values).takeAll S types = .error e) : collect S owner types values = .error e := by
  rw [collect, h]
  rfl

theorem collect_misfit (us : List Ty) (rest : List Value) (h : values.map Value.ty = types)
    (hv : v.ty ≠ t) :
    collect S owner (types ++ t :: us) (values ++ v :: rest) =
      .error (.fieldType owner values.length (S.path t)) := by
  apply collect_eq_error
  rw [takeAll_append _ rfl h]
  simp [takeAll, take, advance, new, hv, Except.map]

theorem collect_short (us : List Ty) (h : values.map Value.ty = types) :
    collect S owner (types ++ t :: us) values = .error (.missingValue owner values.length) := by
  apply collect_eq_error
  rw [takeAll_append _ (List.append_nil _).symm h]
  simp [takeAll, take, advance, new, Except.map]

theorem collect_long (rest : List Value) (h : values.map Value.ty = types) :
    collect S owner types (values ++ v :: rest) =
      .error (.extraValues owner (values ++ v :: rest).length types.length) := by
  have htake : (new owner (values ++ v :: rest)).takeAll S types =
      .ok (values, (new owner (values ++ v :: rest)).advance values.length) := by
    have hv : (new owner (values ++ v :: rest)).values = values ++ v :: rest := rfl
    simpa [takeAll, Except.map] using takeAll_append (S := S) [] hv h
  have hlen : types.length = values.length := by simp [← h]
  rw [collect, htake, hlen]
  show (finish _ >>= fun _ => pure values) = _
  rw [finish, if_pos (by simp [advance, new])]
  simp [advance, new, bind, Except.bind]

end Collect
end FieldValues

/-! ## Errors -/

-- What is wrong with values for parts of some types.
inductive Misfit (S : Schema) (owner : String) (types : List Ty) (values : List Value) :
    SchemaError → Prop
  | wrongType {i : Nat} {t : Ty} {v : Value} :
    types[i]? = some t → values[i]? = some v → v.ty ≠ t → Fitting (types.take i) values →
    Misfit S owner types values (.fieldType owner i (S.path t))
  | tooFew :
    Fitting types values → values.length < types.length →
    Misfit S owner types values (.missingValue owner values.length)
  | tooMany :
    Fitting types values → types.length < values.length →
    Misfit S owner types values (.extraValues owner values.length types.length)

namespace Misfit

variable {S : Schema} {owner : String} {types : List Ty} {values : List Value} {e : SchemaError}

theorem or_fits (S : Schema) (owner : String) (types : List Ty) (values : List Value) :
    values.map Value.ty = types ∨ ∃ e, Misfit S owner types values e := by
  rcases Fitting.or_exists_first types values with h | ⟨i, t, v, ht, hv, hne, h⟩
  case inr => exact .inr ⟨_, .wrongType ht hv hne h⟩
  case inl =>
    rcases Nat.lt_trichotomy values.length types.length with hlt | heq | hgt
    · exact .inr ⟨_, .tooFew h hlt⟩
    · exact .inl <| Fitting.map_ty_eq_iff.mpr ⟨heq, h⟩
    · exact .inr ⟨_, .tooMany h hgt⟩

theorem collect_eq (h : Misfit S owner types values e) :
    FieldValues.collect S owner types values = .error e := by
  cases h with
  | @wrongType i t v ht hv hne h =>
    obtain ⟨hi, rfl⟩ := List.getElem?_eq_some_iff.mp ht
    obtain ⟨hj, rfl⟩ := List.getElem?_eq_some_iff.mp hv
    have hfits := h.map_ty_take (Nat.le_of_lt hi) (Nat.le_of_lt hj)
    have := FieldValues.collect_misfit (S := S) owner (types.drop (i + 1))
      (values.drop (i + 1)) hfits hne
    simpa [Nat.min_eq_left (Nat.le_of_lt hj)] using this
  | tooFew h hlt =>
    have hfits := h.map_ty_eq
    rw [List.take_of_length_le (Nat.le_of_lt hlt)] at hfits
    have := FieldValues.collect_short (S := S) owner (t := types[values.length])
      (types.drop (values.length + 1)) hfits
    simpa using this
  | tooMany h hlt =>
    have hfits := h.map_ty_eq
    rw [List.take_of_length_le (Nat.le_of_lt hlt)] at hfits
    have := FieldValues.collect_long (S := S) owner (v := values[types.length])
      (values.drop (types.length + 1)) hfits
    simpa using this

end Misfit

/-! ## Construction -/

namespace Schema

-- A type whose values are built from their parts, with the types of the parts.
inductive Composite (S : Schema) : Ty → List Ty → (List Value → Value) → Prop
  | record {id : String} {fields : List Field} {positional : Bool} :
    S.shape (.declared id) = .record fields positional →
    Composite S (.declared id) (fields.map Field.ty) (.record id)
  | tuple (types : List Ty) : Composite S (.tuple types) types .tuple

theorem Composite.construct_eq {S : Schema} {t : Ty} {types : List Ty} {make : List Value → Value}
    (h : S.Composite t types make) (values : List Value) :
    S.construct t values = (FieldValues.collect S (S.name t) types values).map make := by
  cases h with
  | record hs => simp only [construct, hs, buildRecord]
  | tuple => rfl

-- Three columns, one of them nullable.
def columns : Schema where
  declarations := [
    ("Row", {
      names := .qualified "app" "Row"
      definition := .record [
        { name := "id", key := "id", ty := .scalar (.int .u32) },
        { name := "label", key := "label", ty := .scalar .string },
        { name := "parent", key := "parent", ty := .optional (.scalar (.int .u32)) }] false })]

-- A record or tuple is built exactly from as many values as it has parts, each of the declared type
-- of its part. Anything else is reported.
theorem construct_exact {S : Schema} {t : Ty} {types : List Ty} {make : List Value → Value}
    (h : S.Composite t types make) (values : List Value) :
    (∀ w, S.construct t values = .ok w ↔
      (values.length = types.length ∧ Fitting types values) ∧ w = make values) ∧
    ∀ e, S.construct t values = .error e ↔ Misfit S (S.name t) types values e := by
  have hok (w : Value) : S.construct t values = .ok w ↔
      (values.length = types.length ∧ Fitting types values) ∧ w = make values := by
    rw [h.construct_eq, FieldValues.map_collect_eq_ok_iff, Fitting.map_ty_eq_iff]
  have herror {e : SchemaError} (he : Misfit S (S.name t) types values e) :
      S.construct t values = .error e := by
    rw [h.construct_eq, he.collect_eq]
    rfl
  refine ⟨hok, fun e => ⟨fun he => ?_, herror⟩⟩
  -- What is refused does not fit, and what is wrong with it is told apart by what is reported.
  rcases Misfit.or_fits S (S.name t) types values with hfits | ⟨e', he'⟩
  · cases he.symm.trans <| (hok _).mpr ⟨Fitting.map_ty_eq_iff.mp hfits, rfl⟩
  · cases he.symm.trans (herror he')
    exact he'

-- The second of four values is of a wrong type, which is reported before the value too many.
theorem construct_exact_columns :
    columns.Composite (.declared "Row")
      [.scalar (.int .u32), .scalar .string, .optional (.scalar (.int .u32))] (.record "Row") ∧
    columns.construct (.declared "Row") [.int .u32 7, .text "x", .none (.scalar (.int .u32))] =
      .ok (.record "Row" [.int .u32 7, .text "x", .none (.scalar (.int .u32))]) ∧
    columns.construct (.declared "Row")
      [.int .u32 7, .bool true, .none (.scalar (.int .u32)), .text "x"] =
      .error (.fieldType "Row" 1 "alloc::string::String") := by
  have h : columns.Composite (.declared "Row") _ _ := .record rfl
  refine ⟨h, (construct_exact h _).left _ |>.mpr ⟨?_, rfl⟩, ?_⟩
  · exact Fitting.map_ty_eq_iff.mp rfl
  · have hfirst : Fitting [.scalar (.int .u32)]
        [.int .u32 7, .bool true, .none (.scalar (.int .u32)), .text "x"] :=
      Fitting.cons_iff.mpr ⟨rfl, nofun⟩
    exact (construct_exact h _).right _ |>.mpr <|
      .wrongType (i := 1) (t := .scalar .string) (v := .bool true) rfl rfl nofun hfirst

end Schema
end TreeCodec
