import TreeCodec.Proofs.Compilation

/-!
The order in which a compilation meets types.

It goes through the values of a type depth first and from left to right. Containers are gone through
in place, wherever they stand. Records, unions, tuples and slots are targets, and are entered where
they are met for the first time only.
-/
namespace TreeCodec

-- Where a compilation goes on: with a value of a type, or with the slot of a type parameter.
inductive Place where
  | value (t : Ty)
  | slot (t : Ty)

namespace Place

def ofField (f : Field) : Place :=
  if f.param.isSome then slot f.ty else value f.ty

-- The target that converts what stands at a place, if it is not converted in place.
def target? (s : Settings) : Place → Option GuardKey
  | value t => if s.hook? t = none ∧ s.schema.HasProcedure t then some (.origin t) else none
  | slot t => some (.arguments [t])

end Place

-- The types that a conversion in place goes on with.
def Settings.inner (s : Settings) (t : Ty) : List Ty :=
  match s.hook? t with
  | none => s.schema.within t
  | some _ => []

-- The places in the procedure of a target, in order.
def GuardKey.places (s : Settings) : GuardKey → List Place
  | origin t =>
    match s.hook? t, s.schema.shape t with
    | none, .record fields _ => fields.map .ofField
    | none, .union variants => variants.map fun v => .value v.ty
    | none, .tuple ts => ts.map .value
    | _, _ => [.value t]
  | arguments ts => [.value (ts.headD (.tuple []))]

namespace GuardKey

variable {s : Settings} {t : Ty}

theorem places_record {fields : List Field} {positional : Bool} (hh : s.hook? t = none)
    (hs : s.schema.shape t = .record fields positional) :
    (origin t).places s = fields.map .ofField := by
  simp only [places, hh, hs]

theorem places_union {variants : List Variant} (hh : s.hook? t = none)
    (hs : s.schema.shape t = .union variants) :
    (origin t).places s = variants.map fun v => .value v.ty := by
  simp only [places, hh, hs]

theorem places_tuple {ts : List Ty} (hh : s.hook? t = none) (hs : s.schema.shape t = .tuple ts) :
    (origin t).places s = ts.map .value := by
  simp only [places, hh, hs]

-- A root that is converted in place has a procedure as well.
theorem places_value (h : ¬(s.hook? t = none ∧ s.schema.HasProcedure t)) :
    (origin t).places s = [.value t] := by
  simp only [places]
  split <;> simp_all [Schema.HasProcedure]

end GuardKey

-- From some places and the targets that were met so far, a compilation meets more targets, or it is
-- stopped by a foreign type.
inductive Walk (s : Settings) : List Place → List GuardKey → Except Ty (List GuardKey) → Prop
  | done {met : List GuardKey} : Walk s [] met (.ok met)
  | refused {t : Ty} {rest : List Place} {met : List GuardKey} :
    s.hook? t = none → s.schema.shape t = .foreign → Walk s (.value t :: rest) met (.error t)
  | inPlace {t : Ty} {rest : List Place} {met : List GuardKey} {r : Except Ty (List GuardKey)} :
    (Place.value t).target? s = none → (s.hook? t = none → s.schema.shape t ≠ .foreign) →
    Walk s ((s.inner t).map .value ++ rest) met r → Walk s (.value t :: rest) met r
  | again {p : Place} {key : GuardKey} {rest : List Place} {met : List GuardKey}
    {r : Except Ty (List GuardKey)} :
    p.target? s = some key → key ∈ met → Walk s rest met r → Walk s (p :: rest) met r
  | enter {p : Place} {key : GuardKey} {rest : List Place} {met : List GuardKey}
    {r : Except Ty (List GuardKey)} :
    p.target? s = some key → key ∉ met → Walk s (key.places s ++ rest) (met ++ [key]) r →
    Walk s (p :: rest) met r

-- The walk of a whole compilation.
def Walk.FromRoot (s : Settings) (root : Ty) : Except Ty (List GuardKey) → Prop :=
  Walk s ((GuardKey.origin root).places s) [.origin root]

namespace Walk

variable {s : Settings} {ps qs : List Place} {met met' : List GuardKey}
  {r r' : Except Ty (List GuardKey)}

theorem append (h : Walk s ps met (.ok met')) (h' : Walk s qs met' r) :
    Walk s (ps ++ qs) met r := by
  generalize hr : Except.ok met' = x at h
  induction h with
  | done => exact Except.ok.inj hr ▸ h'
  | refused => nomatch hr
  | inPlace ht hf _ ih => exact .inPlace ht hf <| List.append_assoc .. ▸ ih hr
  | again ht hm _ ih => exact .again ht hm <| ih hr
  | enter ht hm _ ih => exact .enter ht hm <| List.append_assoc .. ▸ ih hr

-- Nothing after a foreign type is gone through.
theorem append_error {t : Ty} (h : Walk s ps met (.error t)) (qs : List Place) :
    Walk s (ps ++ qs) met (.error t) := by
  generalize hr : Except.error t = x at h
  induction h with
  | done => nomatch hr
  | refused hh hf =>
    cases hr
    exact .refused hh hf
  | inPlace ht hf _ ih => exact .inPlace ht hf <| List.append_assoc .. ▸ ih hr
  | again ht hm _ ih => exact .again ht hm <| ih hr
  | enter ht hm _ ih => exact .enter ht hm <| List.append_assoc .. ▸ ih hr

theorem target?_foreign {t : Ty} (hf : s.schema.shape t = .foreign) :
    (Place.value t).target? s = none := by
  simp [Place.target?, Schema.HasProcedure, hf]

-- There is one way to go on at every place.
theorem unique (h : Walk s ps met r) (h' : Walk s ps met r') : r = r' := by
  induction h with
  | done => cases h'; rfl
  | refused hh hf =>
    cases h' with
    | refused => rfl
    | inPlace _ hn => exact absurd hf (hn hh)
    | again ht | enter ht => simp [target?_foreign hf] at ht
  | inPlace ht hn _ ih =>
    cases h' with
    | refused hh hf => exact absurd hf (hn hh)
    | inPlace _ _ h' => exact ih h'
    | again ht' | enter ht' => simp [ht] at ht'
  | again ht hm _ ih =>
    cases h' with
    | refused _ hf => simp [target?_foreign hf] at ht
    | inPlace ht' => simp [ht] at ht'
    | again _ _ h' => exact ih h'
    | enter ht' hm' => exact absurd (Option.some.inj (ht.symm.trans ht') ▸ hm) hm'
  | enter ht hm _ ih =>
    cases h' with
    | refused _ hf => simp [target?_foreign hf] at ht
    | inPlace ht' => simp [ht] at ht'
    | again ht' hm' => exact absurd hm' (Option.some.inj (ht.symm.trans ht') ▸ hm)
    | enter ht' _ h' => exact ih (Option.some.inj (ht.symm.trans ht') ▸ h')

theorem subset (h : Walk s ps met (.ok met')) : met ⊆ met' := by
  generalize hr : Except.ok met' = x at h
  induction h with
  | done => exact Except.ok.inj hr ▸ List.Subset.refl _
  | refused => nomatch hr
  | inPlace _ _ _ ih | again _ _ _ ih => exact ih hr
  | enter _ _ _ ih => exact List.Subset.trans (List.subset_append_left ..) (ih hr)

end Walk

/-! ## The targets of a type -/

-- The places that are met from a root.
inductive Shown (s : Settings) (root : Ty) : Place → Prop
  | value {t : Ty} : Reached s root t → Shown s root (.value t)
  | slot {t : Ty} {fields : List Field} {positional : Bool} {f : Field} :
    Reached s root t → s.hook? t = none → s.schema.shape t = .record fields positional →
    f ∈ fields → f.param.isSome = true → Shown s root (.slot f.ty)

-- The targets of a root: the root itself, the records, unions and tuples that are met without a
-- hook, and the types of the fields that are declared with type parameters in such records.
inductive IsTarget (s : Settings) (root : Ty) : GuardKey → Prop
  | root : IsTarget s root (.origin root)
  | procedure {t : Ty} :
    Reached s root t → s.hook? t = none → s.schema.HasProcedure t → IsTarget s root (.origin t)
  | slot {t : Ty} {fields : List Field} {positional : Bool} {f : Field} :
    Reached s root t → s.hook? t = none → s.schema.shape t = .record fields positional →
    f ∈ fields → f.param.isSome = true → IsTarget s root (.arguments [f.ty])

theorem IsTarget.reached {s : Settings} {root t : Ty} (h : IsTarget s root (.origin t)) :
    Reached s root t := by
  cases h with
  | root => exact .root
  | procedure ht => exact ht

section Targets

variable {s : Settings} {root t u : Ty} {p : Place} {key : GuardKey}

theorem Place.target?_value (hh : s.hook? t = none) (hp : s.schema.HasProcedure t) :
    (value t).target? s = some (.origin t) :=
  if_pos ⟨hh, hp⟩

theorem Place.target?_value_eq_some (h : (value t).target? s = some key) :
    s.hook? t = none ∧ s.schema.HasProcedure t ∧ key = .origin t := by
  simp only [target?] at h
  split at h
  case isTrue hp => exact ⟨hp.left, hp.right, (Option.some.inj h).symm⟩
  case isFalse => nomatch h

theorem Shown.isTarget (h : Shown s root p) (hk : p.target? s = some key) :
    IsTarget s root key := by
  cases h with
  | value ht =>
    obtain ⟨hh, hp, rfl⟩ := Place.target?_value_eq_some hk
    exact .procedure ht hh hp
  | slot ht hh hs hf hp => exact Option.some.inj hk ▸ .slot ht hh hs hf hp

theorem Settings.mem_inner : u ∈ s.inner t ↔ s.hook? t = none ∧ u ∈ s.schema.within t := by
  unfold inner
  cases s.hook? t <;> simp

theorem Shown.within (h : Shown s root (.value t)) (hh : s.hook? t = none)
    (hu : u ∈ s.schema.within t) : Shown s root (.value u) := by
  cases h with
  | value ht => exact .value <| ht.within hh hu

theorem Shown.inner (h : Shown s root (.value t)) (hu : u ∈ s.inner t) :
    Shown s root (.value u) :=
  have ⟨hh, hu⟩ := Settings.mem_inner.mp hu
  h.within hh hu

theorem Shown.field {fields : List Field} {positional : Bool} {f : Field}
    (h : Shown s root (.value t)) (hh : s.hook? t = none)
    (hs : s.schema.shape t = .record fields positional) (hf : f ∈ fields) :
    Shown s root (.ofField f) := by
  cases h with | value ht => ?_
  unfold Place.ofField
  split
  case isTrue hp => exact .slot ht hh hs hf hp
  case isFalse => exact .value <| ht.within hh <| by simpa [Schema.within, hs] using ⟨f, hf, rfl⟩

-- The procedures of targets show what the root does.
theorem IsTarget.places (h : IsTarget s root key) (hp : p ∈ key.places s) : Shown s root p := by
  have horigin : ∀ t, Reached s root t → p ∈ (GuardKey.origin t).places s → Shown s root p := by
    intro t ht hp
    simp only [GuardKey.places] at hp
    split at hp
    case h_1 fields _ hh hs =>
      obtain ⟨f, hf, he⟩ := List.mem_map.mp hp
      exact he ▸ .field (.value ht) hh hs hf
    case h_2 variants hh hs =>
      obtain ⟨v, hv, he⟩ := List.mem_map.mp hp
      exact he ▸ .value (ht.within hh <| by simpa [Schema.within, hs] using ⟨v, hv, rfl⟩)
    case h_3 ts hh hs =>
      obtain ⟨u, hu, he⟩ := List.mem_map.mp hp
      exact he ▸ .value (ht.within hh <| by simpa [Schema.within, hs])
    case h_4 => exact List.mem_singleton.mp hp ▸ .value ht
  cases h with
  | root => exact horigin root .root hp
  | procedure ht => exact horigin _ ht hp
  | @slot t _ _ f ht hh hs hf =>
    refine List.mem_singleton.mp hp ▸ .value (ht.within hh ?_)
    simpa [Schema.within, hs] using ⟨f, hf, rfl⟩

theorem IsTarget.mem_ofTypes (h : IsTarget s root key) :
    key ∈ GuardKey.ofTypes (WrapperSet.reachable s.schema [root]) := by
  have hm := Reached.coverage s root
  cases h with
  | root => exact hm.origin root .root
  | procedure ht => exact hm.origin _ ht
  | @slot t _ _ f ht hh hs hf =>
    refine hm.arguments _ (ht.within hh ?_)
    simpa [Schema.within, hs] using ⟨f, hf, rfl⟩

end Targets

namespace Walk

variable {s : Settings} {root : Ty} {ps : List Place} {met met' : List GuardKey}
  {r : Except Ty (List GuardKey)}

-- A walk ends with targets of a kind, or at a foreign type without a hook at a place of a kind.
def Ends (s : Settings) (P : Place → Prop) (Q : GuardKey → Prop) :
    Except Ty (List GuardKey) → Prop
  | .ok met => ∀ key ∈ met, Q key
  | .error t => P (.value t) ∧ s.hook? t = none ∧ s.schema.shape t = .foreign

-- What passes from places to the targets that they lead to, and from targets to the places in them,
-- holds wherever a walk comes.
theorem preserves {P : Place → Prop} {Q : GuardKey → Prop}
    (htarget : ∀ p key, P p → p.target? s = some key → Q key)
    (hplaces : ∀ key p, Q key → p ∈ key.places s → P p)
    (hinner : ∀ t u, P (.value t) → (Place.value t).target? s = none → u ∈ s.inner t → P (.value u))
    (h : Walk s ps met r) (hps : ∀ p ∈ ps, P p) (hmet : ∀ key ∈ met, Q key) : Ends s P Q r := by
  induction h with
  | done => exact hmet
  | refused hh hf => exact ⟨hps _ (List.mem_cons_self ..), hh, hf⟩
  | inPlace ht _ _ ih =>
    have ⟨hp, hps⟩ := List.forall_mem_cons.mp hps
    refine ih (fun q hq => ?_) hmet
    rcases List.mem_append.mp hq with hq | hq
    · obtain ⟨u, hu, rfl⟩ := List.mem_map.mp hq
      exact hinner _ u hp ht hu
    · exact hps q hq
  | again _ _ _ ih => exact ih (List.forall_mem_cons.mp hps).right hmet
  | enter ht _ _ ih =>
    have ⟨hp, hps⟩ := List.forall_mem_cons.mp hps
    have hk := htarget _ _ hp ht
    refine ih (fun q hq => ?_) fun key' hk' => ?_
    · exact (List.mem_append.mp hq).elim (hplaces _ q hk) (hps q)
    · exact (List.mem_append.mp hk').elim (hmet key') fun h => List.mem_singleton.mp h ▸ hk

theorem preserves_shown (h : Walk s ps met r) (hps : ∀ p ∈ ps, Shown s root p)
    (hmet : ∀ key ∈ met, IsTarget s root key) : Ends s (Shown s root) (IsTarget s root) r :=
  h.preserves (fun _ _ => Shown.isTarget) (fun _ _ => IsTarget.places) (fun _ _ h _ => h.inner) hps
    hmet

theorem FromRoot.ends (h : FromRoot s root r) : Ends s (Shown s root) (IsTarget s root) r :=
  preserves_shown h (fun _ => IsTarget.root.places) (by simpa using .root)

-- What stops a walk is a foreign type without a hook that is met from the root.
theorem FromRoot.error_reached {t : Ty} (h : FromRoot s root (.error t)) :
    Reached s root t ∧ s.hook? t = none ∧ s.schema.shape t = .foreign := by
  have ⟨hs, hf⟩ := h.ends
  cases hs with
  | value ht => exact ⟨ht, hf⟩

end Walk

/-! ## What a whole walk has met -/

-- All that stands at a place has been gone through when some targets were met.
inductive Handled (s : Settings) (met : List GuardKey) : Place → Prop
  | target {p : Place} {key : GuardKey} : p.target? s = some key → key ∈ met → Handled s met p
  | inPlace {t : Ty} :
    (Place.value t).target? s = none → (s.hook? t = none → s.schema.shape t ≠ .foreign) →
    (∀ u ∈ s.inner t, Handled s met (.value u)) → Handled s met (.value t)

theorem Handled.origin_mem {s : Settings} {met : List GuardKey} {t : Ty}
    (h : Handled s met (.value t)) (hh : s.hook? t = none) (hp : s.schema.HasProcedure t) :
    .origin t ∈ met := by
  cases h with
  | inPlace hn => exact absurd hn (by simp [Place.target?_value hh hp])
  | target ht hk => exact Option.some.inj ((Place.target?_value hh hp).symm.trans ht) ▸ hk

namespace Walk

variable {s : Settings} {root : Ty} {ps : List Place} {met met' : List GuardKey}

-- The places that a walk starts from are handled in the end, and so are those in the targets that
-- it enters.
theorem handled (h : Walk s ps met (.ok met')) :
    (∀ p ∈ ps, Handled s met' p) ∧
      ∀ key ∈ met', key ∉ met → ∀ p ∈ key.places s, Handled s met' p := by
  generalize hr : Except.ok met' = x at h
  induction h with
  | done => exact ⟨nofun, fun key hk hn => absurd (Except.ok.inj hr ▸ hk) hn⟩
  | refused => nomatch hr
  | @inPlace t _ _ _ ht hf _ ih =>
    have ⟨hps, hkeys⟩ := ih hr
    refine ⟨List.forall_mem_cons.mpr ⟨.inPlace ht hf fun u hu => ?_, fun p hp => ?_⟩, hkeys⟩
    · exact hps _ <| List.mem_append_left _ <| List.mem_map_of_mem hu
    · exact hps p <| List.mem_append_right _ hp
  | again ht hm h ih =>
    have ⟨hps, hkeys⟩ := ih hr
    exact ⟨List.forall_mem_cons.mpr ⟨.target ht ((hr ▸ h).subset hm), hps⟩, hkeys⟩
  | @enter p key _ met _ ht _ h ih =>
    have ⟨hps, hkeys⟩ := ih hr
    have hsub := (hr ▸ h).subset
    refine ⟨List.forall_mem_cons.mpr ⟨.target ht (hsub (by simp)), fun p hp => ?_⟩, ?_⟩
    · exact hps p <| List.mem_append_right _ hp
    · intro key' hk' hn p hp
      by_cases he : key' = key
      · exact hps p <| List.mem_append_left _ (he ▸ hp)
      · exact hkeys key' hk' (by simp [hn, he]) p hp

theorem FromRoot.handled {keys : List GuardKey} (h : FromRoot s root (.ok keys)) :
    .origin root ∈ keys ∧ ∀ key ∈ keys, ∀ p ∈ key.places s, Handled s keys p := by
  have ⟨hps, hkeys⟩ := Walk.handled h
  refine ⟨Walk.subset h (by simp), fun key hk => ?_⟩
  by_cases he : key = .origin root
  · exact he ▸ hps
  · exact hkeys key hk (by simp [he])

-- After a whole walk every type that is met from the root was gone through.
theorem FromRoot.handled_value {keys : List GuardKey} (h : FromRoot s root (.ok keys)) {t : Ty}
    (ht : Reached s root t) : Handled s keys (.value t) := by
  have ⟨hroot, hkeys⟩ := h.handled
  induction ht with
  | root =>
    by_cases hp : s.hook? root = none ∧ s.schema.HasProcedure root
    · exact .target (Place.target?_value hp.left hp.right) hroot
    · exact hkeys _ hroot _ <| by rw [GuardKey.places_value hp]; exact List.mem_singleton.mpr rfl
  | @within t u _ hh hu ih =>
    cases ih with
    | inPlace _ _ hi => exact hi u <| Settings.mem_inner.mpr ⟨hh, hu⟩
    | @target _ key htarget hk =>
      obtain ⟨_, hp, rfl⟩ := Place.target?_value_eq_some htarget
      have hplaces := hkeys _ hk
      simp only [GuardKey.places, hh] at hplaces
      unfold Schema.within at hu
      cases hs : s.schema.shape t <;> simp only [hs] at hplaces hu
      case record fields positional =>
        obtain ⟨f, hf, rfl⟩ := List.mem_map.mp hu
        have hfield := hplaces _ (List.mem_map_of_mem hf)
        unfold Place.ofField at hfield
        split at hfield
        case isFalse => exact hfield
        case isTrue =>
          cases hfield with
          | target htarget hk =>
            cases htarget
            exact hkeys _ hk _ (List.mem_singleton.mpr rfl)
      case union variants =>
        obtain ⟨v, hv, rfl⟩ := List.mem_map.mp hu
        exact hplaces _ (List.mem_map.mpr ⟨v, hv, rfl⟩)
      case tuple ts => exact hplaces _ (List.mem_map_of_mem hu)
      all_goals exact absurd hp (by simp [Schema.HasProcedure, hs])

-- A walk to the end meets no foreign type without a hook.
theorem FromRoot.not_foreign {keys : List GuardKey} (h : FromRoot s root (.ok keys)) {t : Ty}
    (ht : Reached s root t) (hh : s.hook? t = none) : s.schema.shape t ≠ .foreign := by
  cases h.handled_value ht with
  | inPlace _ hf => exact hf hh
  | target htarget =>
    intro hf
    simp [target?_foreign hf] at htarget

-- A walk to the end meets the targets of the root.
theorem FromRoot.mem_iff {keys : List GuardKey} (h : FromRoot s root (.ok keys))
    (key : GuardKey) : key ∈ keys ↔ IsTarget s root key := by
  constructor
  case mp => exact h.ends key
  case mpr =>
    intro hk
    have ⟨hroot, hkeys⟩ := h.handled
    cases hk with
    | root => exact hroot
    | procedure ht hh hp => exact (h.handled_value ht).origin_mem hh hp
    | @slot t fields _ f ht hh hs hf hp =>
      have horigin := (h.handled_value ht).origin_mem hh (by simp [Schema.HasProcedure, hs])
      have hplace : Handled s keys (.ofField f) := by
        refine hkeys _ horigin _ ?_
        rw [GuardKey.places_record hh hs]
        exact List.mem_map_of_mem hf
      rw [Place.ofField, if_pos hp] at hplace
      cases hplace with
      | target htarget hk =>
        cases htarget
        exact hk

end Walk
end TreeCodec
