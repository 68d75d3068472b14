import TreeCodec.Proofs.DumpAgreement
import TreeCodec.Proofs.Traversal
import TreeCodec.Proofs.Typing

/-!
How dumping ends.

Every declared type that a direct dump comes to is for a smaller value, so the size of the value is
depth enough. Values that have their types are read without a fault; what is left to go wrong are
hooks and the keys of maps.
-/
namespace TreeCodec

/-! ## Runs that end -/

-- A run ends with a value, or it fails with a fault of some kind.
def Run.Ends {α : Type} (E : Fault → Prop) (x : Run α) : Prop :=
  match x.outcome with
  | .done _ => True
  | .failed e => E e.fault
  | .unfinished => False

namespace Run.Ends

variable {α β γ : Type} {E : Fault → Prop} {x : Run α}

theorem finished (h : x.Ends E) : x.Finished := by
  intro hx
  simp [Ends, hx] at h

theorem fault_of_failed (h : x.Ends E) {e : ConversionError} (hx : x.outcome = .failed e) :
    E e.fault := by
  simpa [Ends, hx] using h

theorem pure (a : α) : (Pure.pure a : Run α).Ends E :=
  trivial

theorem fault {f : Fault} (h : E f) : (Run.fault f : Run α).Ends E :=
  h

theorem bind {f : α → Run β} (h : x.Ends E) (hf : ∀ a, x.outcome = .done a → (f a).Ends E) :
    (x >>= f).Ends E := by
  unfold Ends at *
  rw [outcome_bind]
  cases hx : x.outcome <;> rw [hx] at h
  case done a => exact hf a hx
  case failed e => exact h
  case unfinished => exact h

theorem within (h : x.Ends E) (step : PathStep) : (x.within step).Ends E := by
  unfold Ends at *
  rw [outcome_within]
  cases hx : x.outcome <;> rw [hx] at h <;> exact h

theorem forEach {f : Nat → α → Run β} {as : List α} (i : Nat)
    (h : ∀ k a, as[k]? = some a → (f (i + k) a).Ends E) : (Run.forEach f i as).Ends E := by
  induction as generalizing i with
  | nil => exact pure _
  | cons a as ih =>
    refine (h 0 a rfl).bind fun _ _ => (ih (i + 1) fun k b hk => ?_).bind fun _ _ => pure _
    rw [Nat.add_right_comm]
    exact h (k + 1) b hk

theorem forEach_mem {f : Nat → α → Run β} {as : List α} (i : Nat)
    (h : ∀ a ∈ as, ∀ k, (f k a).Ends E) : (Run.forEach f i as).Ends E :=
  forEach i fun _ a hk => h a (List.mem_of_getElem? hk) _

end Run.Ends

/-! ## Values that can be read -/

-- What is read from a value has a property, or the fault is of some kind.
def Reads {α : Type} (E : Fault → Prop) (P : α → Prop) : Except SchemaError α → Prop
  | .ok a => P a
  | .error e => E (.schema e)

theorem Reads.bind {α β : Type} {E : Fault → Prop} {P : α → Prop} {x : Except SchemaError α}
    {f : α → Run β} (h : Reads E P x) (hf : ∀ a, x = .ok a → P a → (f a).Ends E) :
    (Run.ofExcept x >>= f).Ends E := by
  cases x with
  | ok a => exact Run.Ends.bind (.pure a) fun _ ha => Outcome.done.inj ha ▸ hf a rfl h
  | error e => exact Run.Ends.bind (.fault h) nofun

-- A part that is there has a property, or that there is none is of the kinds of fault.
def Part (E : Fault → Prop) (P : Value → Prop) : Option Value → Prop
  | some w => P w
  | none => E .missing

-- Where values of some kind are read as what their types say, their parts are of that kind again.
structure Readable (S : Schema) (E : Fault → Prop) (Q : Ty → Value → Prop) : Prop where
  scalar   : ∀ {k v}, Q (.scalar k) v → Reads E (fun _ => True) (k.toScalar v)
  tree     : ∀ {t v}, S.shape t = .dynamic → Q t v → Reads E (fun _ => True) (S.toTree t v)
  optional : ∀ {t v}, Q (.optional t) v →
    Reads E (fun o => ∀ w, o = some w → Q t w) (S.optionValue (.optional t) v)
  boxed    : ∀ {t v}, Q (.boxed t) v → Reads E (Q t) (S.boxValue (.boxed t) v)
  list     : ∀ {k t v}, Q (.list k t) v → Reads E (fun ws => ∀ w ∈ ws, Q t w)
    (S.listItems (.list k t) v)
  map      : ∀ {k t u v}, Q (.map k t u) v → Reads E (fun es => ∀ e ∈ es, Q t e.1 ∧ Q u e.2)
    (S.mapEntries (.map k t u) v)
  element  : ∀ {ts v i t}, Q (.tuple ts) v → ts[i]? = some t →
    Reads E (Part E (Q t)) (S.getElement (.tuple ts) i v)
  field    : ∀ {id fields positional v i f}, S.shape (.declared id) = .record fields positional →
    Q (.declared id) v → fields[i]? = some f →
    Reads E (Part E (Q f.ty)) (S.getField (.declared id) i v)
  union    : ∀ {id variants v}, S.shape (.declared id) = .union variants → Q (.declared id) v →
    Reads E (fun (i, w) => match variants[i]? with
      | some variant => Q variant.ty w
      | none => E (.schema (.noVariant (S.path (.declared id)) i)))
      (S.activeVariant (.declared id) v)

-- Anything may be read if any fault will do.
theorem readable_of_any (S : Schema) : Readable S (fun _ => True) fun _ _ => True := by
  have hreads : ∀ {α : Type} {P : α → Prop} (x : Except SchemaError α), (∀ a, P a) →
      Reads (fun _ => True) P x := by
    intro α P x hP
    cases x with
    | ok a => exact hP a
    | error => trivial
  have hpart : ∀ o, Part (fun _ => True) (fun _ => True) o := by
    intro o
    cases o <;> trivial
  constructor
  case element => exact fun _ _ => hreads _ hpart
  case field => exact fun _ _ _ => hreads _ hpart
  case union =>
    refine fun _ _ => hreads _ fun (i, w) => ?_
    dsimp only
    split <;> trivial
  all_goals exact fun _ => by intros; exact hreads _ (by simp)

/-! ## Rules that end -/

-- A rule ends on the values of a kind that are not larger than `n`.
def Dump.Rule.Ends (E : Fault → Prop) (Q : Value → Prop) (n : Nat) (rule : Dump.Rule) : Prop :=
  ∀ v, Q v → v.size ≤ n → (rule v).Ends E

section Rules

open Dump

variable {S : Schema} {E : Fault → Prop} {Q : Ty → Value → Prop} {n : Nat} {t u : Ty}
  {r r' : Dump.Rule}

theorem Dump.hook_ends {h : DumpHook} {P : Value → Prop}
    (hE : ∀ v message, h v = .error message → E (.hook message)) :
    Rule.Ends E P n (Dump.hook h) := by
  intro v _ _
  unfold Dump.hook
  cases hv : h v with
  | ok t => exact .pure t
  | error message => exact .fault (hE v message hv)

namespace Readable

variable (R : Readable S E Q)
include R

theorem scalar_ends (k : ScalarTy) : (Dump.scalar k).Ends E (Q (.scalar k)) n :=
  fun _ hv _ => (R.scalar hv).bind fun _ _ _ => .pure _

theorem tree_ends (hs : S.shape t = .dynamic) : (Dump.tree S t).Ends E (Q t) n := by
  intro v hv _
  have h := R.tree hs hv
  unfold Dump.tree
  cases hx : S.toTree t v with
  | ok x => exact .pure x
  | error e =>
    rw [hx] at h
    exact .fault h

theorem optional_ends (h : r.Ends E (Q t) n) :
    (Dump.optional S (.optional t) r).Ends E (Q (.optional t)) n := by
  refine fun v hv hn => (R.optional hv).bind fun o ho hp => ?_
  have ⟨_, ho⟩ := Schema.optionValue_eq_ok_iff.mp ho
  cases o with
  | none => exact .pure _
  | some w =>
    obtain rfl : v = .some w := ho
    exact h w (hp w rfl) (Nat.le_of_succ_le hn)

theorem boxed_ends (h : r.Ends E (Q t) n) :
    (Dump.boxed S (.boxed t) r).Ends E (Q (.boxed t)) n := by
  refine fun v hv hn => (R.boxed hv).bind fun w hw hp => ?_
  obtain ⟨_, rfl⟩ := Schema.boxValue_eq_ok_iff.mp hw
  exact h w hp (Nat.le_of_succ_le hn)

theorem list_ends {k : ListKind} (h : r.Ends E (Q t) n) :
    (Dump.list S (.list k t) r).Ends E (Q (.list k t)) n := by
  refine fun v hv hn => (R.list hv).bind fun ws hws hp => ?_
  obtain ⟨_, _, _, rfl⟩ := Schema.listItems_eq_ok_iff.mp hws
  refine (Run.Ends.forEach_mem 0 fun w hw i => ?_).bind fun _ _ => .pure _
  have hsize := Value.size_le_sizeList hw
  exact (h w (hp w hw) (Nat.le_trans hsize (Nat.le_of_succ_le hn))).within _

theorem map_ends {k : MapKind} (hkey : E .nonStringKey) (h : r.Ends E (Q t) n)
    (h' : r'.Ends E (Q u) n) : (Dump.map S (.map k t u) k r r').Ends E (Q (.map k t u)) n := by
  refine fun v hv hn => (R.map hv).bind fun es hes hp => ?_
  obtain ⟨_, _, _, _, rfl⟩ := Schema.mapEntries_eq_ok_iff.mp hes
  refine (Run.Ends.forEach_mem 0 fun e he i => ?_).bind fun _ _ => .pure _
  have hsize := Value.size_le_sizeEntries he
  simp only [Value.size] at hn
  refine (h e.1 (hp e he).left (by omega)).bind fun key _ => .bind ?_ fun name _ => ?_
  · unfold keyText
    cases hk : key.keyText with
    | ok name => exact .pure name
    | error f =>
      unfold Tree.keyText at hk
      split at hk <;> cases hk
      exact .fault hkey
  · exact ((h' e.2 (hp e he).right (by omega)).within _).bind fun _ _ => .pure _

omit R in
theorem dumpPart_ends {P : Value → Prop} {found : Except SchemaError (Option Value)}
    (h : Reads E (Part E P) found) (hr : ∀ w, found = .ok (some w) → P w → (r w).Ends E) :
    (Direct.dumpPart r found).Ends E := by
  match found with
  | .error e => exact .fault h
  | .ok none => exact .fault h
  | .ok (some w) => exact .bind (.pure w) fun _ hw => Outcome.done.inj hw ▸ hr w rfl h

theorem dumpTuple_ends {ts : List Ty} {rule : Ty → Dump.Rule}
    (h : ∀ t ∈ ts, (rule t).Ends E (Q t) n) :
    (Direct.dumpTuple S (.tuple ts) (ts.map rule)).Ends E (Q (.tuple ts)) n := by
  intro v hv hn
  refine (Run.Ends.forEach 0 fun i r hi => ?_).bind fun _ _ => .pure _
  rw [List.getElem?_map] at hi
  obtain ⟨t, ht, rfl⟩ := Option.map_eq_some_iff.mp hi
  rw [Nat.zero_add]
  refine Run.Ends.within (dumpPart_ends (R.element hv ht) fun w hw hp => ?_) _
  obtain ⟨_, vs, rfl, hi⟩ := Schema.getElement_eq_ok_iff.mp hw
  have hsize := Value.size_le_sizeList (List.mem_of_getElem? hi)
  exact h t (List.mem_of_getElem? ht) w hp (Nat.le_trans hsize (Nat.le_of_succ_le hn))

section Declared

variable {id : String} {fields : List Field} {positional : Bool}

-- A field is smaller than its record.
theorem field_ends (hs : S.shape (.declared id) = .record fields positional)
    {rule : Field → Dump.Rule} (h : ∀ f ∈ fields, (rule f).Ends E (Q f.ty) n) {v : Value}
    (hv : Q (.declared id) v) (hn : v.size ≤ n + 1) {i : Nat} {f : Field}
    (hf : fields[i]? = some f) :
    (Direct.dumpPart (rule f) (S.getField (.declared id) i v)).Ends E := by
  refine dumpPart_ends (R.field hs hv hf) fun w hw hp => ?_
  obtain ⟨_, _, vs, rfl, hi⟩ := Schema.getField_eq_ok_iff.mp hw
  have hsize := Value.size_le_sizeList (List.mem_of_getElem? hi)
  exact h f (List.mem_of_getElem? hf) w hp (Nat.le_trans hsize (Nat.le_of_succ_le_succ hn))

omit R in
theorem dumpMapping_ends {options : Options} {v : Value} {rule : Field → Dump.Rule} {i : Nat}
    {entries : List (String × Tree)}
    (h : ∀ k f, fields[k]? = some f →
      (Direct.dumpPart (rule f) (S.getField t (i + k) v)).Ends E) :
    (Direct.dumpMapping S options t v i entries (fields.map fun f => (f, rule f))).Ends E := by
  induction fields generalizing i entries with
  | nil => exact .pure _
  | cons f fs ih =>
    refine ((h 0 f rfl).within _).bind fun _ _ => ih fun k g hk => ?_
    rw [Nat.add_right_comm]
    exact h (k + 1) g hk

theorem mapping_ends {options : Options} (hs : S.shape (.declared id) = .record fields positional)
    {rule : Field → Dump.Rule} (h : ∀ f ∈ fields, (rule f).Ends E (Q f.ty) n) :
    Dump.Rule.Ends E (Q (.declared id)) (n + 1) fun v =>
      Direct.dumpMapping S options (.declared id) v 0 [] (fields.map fun f => (f, rule f)) := by
  refine fun v hv hn => dumpMapping_ends fun k f hk => ?_
  rw [Nat.zero_add]
  exact R.field_ends hs h hv hn hk

theorem sequence_ends (hs : S.shape (.declared id) = .record fields positional)
    {rule : Field → Dump.Rule} (h : ∀ f ∈ fields, (rule f).Ends E (Q f.ty) n) :
    (Direct.dumpSequence S (.declared id) (fields.map fun f => (f, rule f))).Ends E
      (Q (.declared id)) (n + 1) := by
  intro v hv hn
  refine (Run.Ends.forEach 0 fun i fr hi => ?_).bind fun _ _ => .pure _
  rw [List.getElem?_map] at hi
  obtain ⟨f, hf, rfl⟩ := Option.map_eq_some_iff.mp hi
  rw [Nat.zero_add]
  exact (R.field_ends hs h hv hn hf).within _

theorem union_ends {variants : List Variant} (hs : S.shape (.declared id) = .union variants)
    {rule : Ty → Dump.Rule} (h : ∀ variant ∈ variants, (rule variant.ty).Ends E (Q variant.ty) n) :
    (Dump.union S (.declared id) (variants.map fun v => rule v.ty)).Ends E (Q (.declared id))
      (n + 1) := by
  refine fun v hv hn => (R.union hs hv).bind fun (i, w) hw hp => ?_
  obtain ⟨_, _, rfl⟩ := Schema.activeVariant_eq_ok_iff.mp hw
  dsimp only at hp ⊢
  rw [List.getElem?_map]
  cases hi : variants[i]? with
  | none =>
    rw [hi] at hp
    exact .fault hp
  | some variant =>
    rw [hi] at hp
    exact h variant (List.mem_of_getElem? hi) w hp (Nat.le_of_succ_le_succ hn)

end Declared
end Readable
end Rules

/-! ## Direct dumps end -/

-- The faults that come from the hooks for dumping.
def FromHook (hooks : Hooks) (f : Fault) : Prop :=
  ∃ t h v message, hooks.dump? t = some h ∧ h v = .error message ∧ f = .hook message

-- A kind of faults that has those of hooks and of the keys of maps.
structure Covers (hooks : Hooks) (E : Fault → Prop) : Prop where
  hook : ∀ f, FromHook hooks f → E f
  key  : E .nonStringKey

-- No foreign type without a hook is met from the root.
def NoForeign (s : Settings) (root : Ty) : Prop :=
  ∀ t, Reached s root t → s.hook? t = none → s.schema.shape t ≠ .foreign

section Direct

variable {s : Settings} {root : Ty} {E : Fault → Prop} {Q : Ty → Value → Prop} {n : Nat}
  {declared : String → Dump.Rule}

theorem dumpHooked_ends (hd : s.direction = .dump) (hE : Covers s.hooks E) {t : Ty}
    {rule : Dump.Rule} (h : s.hook? t = none → rule.Ends E (Q t) n) :
    (Direct.dumpHooked s.hooks t rule).Ends E (Q t) n := by
  unfold Direct.dumpHooked
  cases hh : s.hooks.dump? t with
  | none => exact h <| (Settings.dump?_eq_none_iff hd).mp hh
  | some f => exact Dump.hook_ends fun v message hv => hE.hook _ ⟨t, f, v, message, hh, hv, rfl⟩

mutual

-- The induction is on the type; declared types are left to `declared`.
theorem dumpType_ends (R : Readable s.schema E Q) (hd : s.direction = .dump)
    (hE : Covers s.hooks E)
    (hdeclared : ∀ id, Reached s root (.declared id) → s.hook? (.declared id) = none →
      (declared id).Ends E (Q (.declared id)) n) :
    ∀ t, Reached s root t → (Direct.dumpType s.schema s.hooks declared t).Ends E (Q t) n
  | .scalar k, _ => dumpHooked_ends hd hE fun _ => R.scalar_ends k
  | .dynamic, _ => dumpHooked_ends hd hE fun _ => R.tree_ends rfl
  | .optional t, ht => dumpHooked_ends hd hE fun hh => R.optional_ends <|
    dumpType_ends R hd hE hdeclared t <| ht.within hh <| List.mem_singleton_self t
  | .boxed t, ht => dumpHooked_ends hd hE fun hh => R.boxed_ends <|
    dumpType_ends R hd hE hdeclared t <| ht.within hh <| List.mem_singleton_self t
  | .list _ t, ht => dumpHooked_ends hd hE fun hh => R.list_ends <|
    dumpType_ends R hd hE hdeclared t <| ht.within hh <| List.mem_singleton_self t
  | .map _ t u, ht => dumpHooked_ends hd hE fun hh => R.map_ends hE.key
    (dumpType_ends R hd hE hdeclared t <| ht.within hh <| List.mem_cons_self ..)
    (dumpType_ends R hd hE hdeclared u <| ht.within hh <| by simp [Schema.within, Schema.shape])
  | .tuple ts, ht => dumpHooked_ends hd hE fun hh => by
    rw [Direct.dumpTypes_eq_map]
    have hts : ∀ t ∈ ts, Reached s root t := fun t hm => ht.within hh hm
    exact R.dumpTuple_ends <| dumpTypes_ends R hd hE hdeclared ts hts
  | .declared id, ht => dumpHooked_ends hd hE fun hh => hdeclared id ht hh

theorem dumpTypes_ends (R : Readable s.schema E Q) (hd : s.direction = .dump)
    (hE : Covers s.hooks E)
    (hdeclared : ∀ id, Reached s root (.declared id) → s.hook? (.declared id) = none →
      (declared id).Ends E (Q (.declared id)) n) :
    ∀ ts : List Ty, (∀ t ∈ ts, Reached s root t) →
      ∀ t ∈ ts, (Direct.dumpType s.schema s.hooks declared t).Ends E (Q t) n
  | [], _ => nofun
  | u :: ts, hts =>
    have ⟨hu, hts⟩ := List.forall_mem_cons.mp hts
    List.forall_mem_cons.mpr
      ⟨dumpType_ends R hd hE hdeclared u hu, dumpTypes_ends R hd hE hdeclared ts hts⟩

end

-- A dump that may nest as many declared types as the value has values in it ends.
theorem dumpWithin_ends (R : Readable s.schema E Q) (hd : s.direction = .dump)
    (hE : Covers s.hooks E) (hf : NoForeign s root) (n : Nat) (id : String)
    (ht : Reached s root (.declared id)) (hh : s.hook? (.declared id) = none) :
    (Direct.dumpWithin s.schema s.hooks s.options n id).Ends E (Q (.declared id)) n := by
  induction n generalizing id with
  | zero => exact fun v _ hn => absurd v.size_pos (by omega)
  | succ n ih =>
    have htype : ∀ t, Reached s root t → (Direct.dumpType s.schema s.hooks
        (Direct.dumpWithin s.schema s.hooks s.options n) t).Ends E (Q t) n :=
      dumpType_ends R hd hE ih
    unfold Direct.dumpWithin
    cases hs : s.schema.shape (.declared id) <;> simp only [Direct.dumpDeclared, hs]
    case record fields positional =>
      have hfields : ∀ f ∈ fields, Reached s root f.ty := fun f hf =>
        ht.within hh <| by simpa [Schema.within, hs] using ⟨f, hf, rfl⟩
      cases positional
      · exact R.mapping_ends hs fun f hf => htype f.ty (hfields f hf)
      · exact R.sequence_ends hs fun f hf => htype f.ty (hfields f hf)
    case union variants =>
      refine R.union_ends hs fun variant hv => htype variant.ty <| ht.within hh ?_
      simpa [Schema.within, hs] using ⟨variant, hv, rfl⟩
    case dynamic => exact R.tree_ends hs
    case foreign => exact absurd hs <| hf _ ht hh
    all_goals
      rcases s.schema.shape_declared id with ⟨_, _, h⟩ | ⟨_, h⟩ | h | h <;> simp [hs] at h

theorem direct_dump_ends (R : Readable s.schema E Q) (hd : s.direction = .dump)
    (hE : Covers s.hooks E) (hf : NoForeign s root) {t : Ty} (ht : Reached s root t) (n : Nat) :
    (Direct.dump s.schema s.hooks s.options n t).Ends E (Q t) n :=
  dumpType_ends R hd hE (dumpWithin_ends R hd hE hf n) t ht

end Direct

/-! ## Values that have their types -/

theorem Reads.of_eq {α : Type} {E : Fault → Prop} {P : α → Prop} {x : Except SchemaError α} {a : α}
    (h : x = .ok a) (ha : P a) : Reads E P x :=
  h ▸ ha

-- A value that has its type is read without a fault, and its parts have theirs.
theorem readable_of_hasType (S : Schema) (E : Fault → Prop) : Readable S E S.HasType where
  scalar h := by
    cases h with
    | tree _ hs => cases hs
    | _ => exact .of_eq (if_pos rfl) trivial
  tree hs h := by
    cases h with
    | tree x _ => exact .of_eq (by simp [Schema.toTree, Schema.require, Value.ty]; rfl) trivial
    | record hs' | union hs' => cases hs.symm.trans hs'
    | _ => cases hs
  optional h := by
    have ht := h.ty_eq
    cases h with
    | tree _ hs => cases hs
    | none =>
      refine .of_eq (Schema.optionValue_eq_ok_iff (o := none).mpr ⟨ht, _, rfl⟩) ?_
      rintro _ ⟨⟩
    | @some _ w h =>
      exact .of_eq (Schema.optionValue_eq_ok_iff (o := some w).mpr ⟨ht, rfl⟩) fun _ hw =>
        Option.some.inj hw ▸ h
  boxed h := by
    have ht := h.ty_eq
    cases h with
    | tree _ hs => cases hs
    | boxed h => exact .of_eq (Schema.boxValue_eq_ok_iff.mpr ⟨ht, rfl⟩) h
  list h := by
    have ht := h.ty_eq
    cases h with
    | tree _ hs => cases hs
    | list h => exact .of_eq (Schema.listItems_eq_ok_iff.mpr ⟨ht, _, _, rfl⟩) h
  map h := by
    have ht := h.ty_eq
    cases h with
    | tree _ hs => cases hs
    | map hk hv =>
      exact .of_eq (Schema.mapEntries_eq_ok_iff.mpr ⟨ht, _, _, _, rfl⟩) fun e he =>
        ⟨hk e he, hv e he⟩
  element h hi := by
    have ht := h.ty_eq
    cases h with
    | tree _ hs => cases hs
    | tuple h =>
      obtain ⟨w, hw, hp⟩ := exists_getElem?_of_forall₂ h hi
      exact .of_eq (Schema.getElement_eq_ok_iff.mpr ⟨ht, _, rfl, hw⟩) hp
  field hs h hi := by
    have ht := h.ty_eq
    cases h with
    | tree _ hs' | union hs' => cases hs.symm.trans hs'
    | record hs' h =>
      cases hs.symm.trans hs'
      obtain ⟨w, hw, hp⟩ := exists_getElem?_of_forall₂ (List.forall₂_map_left_iff.mp h) hi
      exact .of_eq (Schema.getField_eq_ok_iff.mpr ⟨ht, _, _, rfl, hw⟩) hp
  union hs h := by
    have ht := h.ty_eq
    cases h with
    | tree _ hs' | record hs' => cases hs.symm.trans hs'
    | union hs' hi h =>
      cases hs.symm.trans hs'
      exact .of_eq (Schema.activeVariant_eq_ok_iff.mpr ⟨ht, _, rfl⟩) (by simpa only [hi] using h)

section Compiled

variable {S : Schema} {options : Options} {hooks : Hooks} {root : Ty} {dumper : Dumper}

theorem noForeign_of_compiled {d : Direction} {source : Source}
    (h : (compileProcedures S options hooks d root).result = .ok source) :
    NoForeign ⟨S, d, hooks, options⟩ root := by
  have ⟨_, _, hwalk, _⟩ := compileProcedures_walked h
  exact fun _ => hwalk.not_foreign

theorem covers_any (hooks : Hooks) : Covers hooks fun _ => True :=
  ⟨fun _ _ => trivial, trivial⟩

-- The faults that a value which has its type can be dumped with.
def DumpFault (hooks : Hooks) (f : Fault) : Prop :=
  f = .nonStringKey ∨ FromHook hooks f

theorem covers_dumpFault (hooks : Hooks) : Covers hooks (DumpFault hooks) :=
  ⟨fun _ => .inr, .inl rfl⟩

theorem dumpFault_of_no_hook (h : ∀ t, hooks.dump? t = none) {f : Fault}
    (hf : DumpFault hooks f) : f = .nonStringKey := by
  rcases hf with hf | ⟨t, _, _, _, ht, _⟩
  · exact hf
  · simp [h t] at ht

-- A compiled dumper ends as direct dumping does that may nest enough declared types.
theorem exists_depth_of_compiled (h : (compileDumper S options hooks root).result = .ok dumper)
    (hd : Settings.HelpersDistinct ⟨S, .dump, hooks, options⟩ root) {v : Value} (hv : v.ty = root) :
    ∃ N, ∀ n, N ≤ n → (dumper.dump S v).outcome.untrailed =
      (Direct.dump S hooks options n root v).outcome.untrailed := by
  have ⟨source, hs, hlink, hi, hroot⟩ := compileDumper_linked h
  have ⟨_, U, hc, hlink', hU⟩ := exists_dumpsTargets hs (hd source hs)
  cases hlink.symm.trans hlink'
  have hdump : dumper.dump S v = dumper.unit.dump S dumper.entry v := if_pos (hv.trans hroot.symm)
  exact hdump ▸ hU.dump_eq_direct hc rfl hi v

-- As many declared types as there are values in the value are enough.
theorem outcome_eq_direct (h : (compileDumper S options hooks root).result = .ok dumper)
    (hd : Settings.HelpersDistinct ⟨S, .dump, hooks, options⟩ root) {v : Value} (hv : v.ty = root)
    {n : Nat} (hn : v.size ≤ n) :
    (Direct.dump S hooks options n root v).Finished ∧ (dumper.dump S v).outcome.untrailed =
      (Direct.dump S hooks options n root v).outcome.untrailed := by
  have ⟨_, hs, _⟩ := compileDumper_linked h
  have hends := direct_dump_ends (s := ⟨S, .dump, hooks, options⟩) (readable_of_any S) rfl
    (covers_any hooks) (noForeign_of_compiled hs) .root n v trivial hn
  have ⟨N, hN⟩ := exists_depth_of_compiled h hd hv
  refine ⟨hends.finished, ?_⟩
  rw [hN (max N n) (Nat.le_max_left ..)]
  exact ((Direct.dump_mono (Nat.le_max_right ..) root v).outcome_eq hends.finished).symm

theorem dumpFault_of_failed (h : (compileDumper S options hooks root).result = .ok dumper)
    (hd : Settings.HelpersDistinct ⟨S, .dump, hooks, options⟩ root) {v : Value}
    (hv : S.HasType root v) {e : ConversionError} (he : (dumper.dump S v).outcome = .failed e) :
    DumpFault hooks e.fault := by
  have ⟨_, hs, _⟩ := compileDumper_linked h
  have hends := direct_dump_ends (s := ⟨S, .dump, hooks, options⟩) (readable_of_hasType S _) rfl
    (covers_dumpFault hooks) (noForeign_of_compiled hs) .root v.size v hv (Nat.le_refl _)
  have ⟨_, heq⟩ := outcome_eq_direct h hd hv.ty_eq (Nat.le_refl _)
  rw [he] at heq
  cases hdirect : (Direct.dump S hooks options v.size root v).outcome <;> rw [hdirect] at heq <;>
    simp only [Outcome.untrailed, Outcome.mapError, reduceCtorEq, Outcome.failed.injEq] at heq
  case failed e' =>
    have hfault : e.fault = e'.fault := congrArg (·.fault) heq
    exact hfault ▸ hends.fault_of_failed hdirect

end Compiled

-- A tree with one branch.
def sapling : Value :=
  .record "Tree" [.int .u8 3, .union "Shape" 0 (.tuple [.int .u8 1, .int .i32 (-2)]),
    .list .vector (.declared "Tree")
      [.record "Tree" [.int .u8 4, .union "Shape" 1 (.bool true),
        .list .vector (.declared "Tree") []]]]

theorem hasType_sapling : orchard.HasType (.declared "Tree") sapling := by
  have hbranch : orchard.HasType (.declared "Tree")
      (.record "Tree" [.int .u8 4, .union "Shape" 1 (.bool true),
        .list .vector (.declared "Tree") []]) :=
    .record rfl <| .cons (.int rfl) <| .cons (.union rfl rfl (.bool _)) <| .cons (.list nofun) .nil
  have hsize : orchard.HasType (.declared "Shape")
      (.union "Shape" 0 (.tuple [.int .u8 1, .int .i32 (-2)])) :=
    .union rfl rfl <| .tuple <| .cons (.int rfl) <| .cons (.int rfl) .nil
  refine .record rfl <| .cons (.int rfl) <| .cons hsize <| .cons (.list ?_) .nil
  exact List.forall_mem_singleton.mpr hbranch

-- A compiled dumper ends, and ends as direct dumping does. A value that has its type is dumped, but
-- for what hooks refuse and for keys of maps that give no text.
theorem dumper_ends_as_direct {S : Schema} {options : Options} {hooks : Hooks} {root : Ty}
    {dumper : Dumper} (h : (compileDumper S options hooks root).result = .ok dumper)
    (hd : Settings.HelpersDistinct ⟨S, .dump, hooks, options⟩ root) :
    (∀ v, v.ty = root → (dumper.dump S v).Finished ∧ ∀ n, v.size ≤ n →
      (dumper.dump S v).outcome.untrailed =
        (Direct.dump S hooks options n root v).outcome.untrailed) ∧
    (∀ v, S.HasType root v → ∀ e, (dumper.dump S v).outcome = .failed e →
      DumpFault hooks e.fault) ∧
    ((∀ t, hooks.dump? t = none) → ∀ v, S.HasType root v → ∀ e,
      (dumper.dump S v).outcome = .failed e → e.fault = .nonStringKey) := by
  refine ⟨?agrees, ?faults, ?unhooked⟩
  case agrees =>
    refine fun v hv => ⟨fun hu => ?_, fun n hn => (outcome_eq_direct h hd hv hn).right⟩
    have ⟨hfinished, heq⟩ := outcome_eq_direct h hd hv (Nat.le_refl _)
    rw [hu] at heq
    exact hfinished <| Outcome.untrailed_eq_unfinished_iff.mp heq.symm
  case faults => exact fun v hv e he => dumpFault_of_failed h hd hv he
  case unhooked =>
    exact fun hn v hv e he => dumpFault_of_no_hook hn <| dumpFault_of_failed h hd hv he

theorem dumper_ends_as_direct_sapling :
    ∃ dumper, (compileDumper orchard {} {} (.declared "Tree")).result = .ok dumper ∧
      Settings.HelpersDistinct ⟨orchard, .dump, {}, {}⟩ (.declared "Tree") ∧
      orchard.HasType (.declared "Tree") sapling ∧
      ((dumper.dump orchard sapling).Finished ∧ ∀ n, sapling.size ≤ n →
        (dumper.dump orchard sapling).outcome.untrailed =
          (Direct.dump orchard {} {} n (.declared "Tree") sapling).outcome.untrailed) ∧
      ∀ e, (dumper.dump orchard sapling).outcome = .failed e → e.fault = .nonStringKey := by
  have ⟨dumper, h⟩ := Compiled.exists_ok (x := compileDumper orchard {} {} (.declared "Tree"))
    (by decide +kernel)
  have hd : Settings.HelpersDistinct ⟨orchard, .dump, {}, {}⟩ (.declared "Tree") :=
    Settings.helpersDistinct_of_nodup (by decide +kernel)
  have ⟨hagrees, _, hunhooked⟩ := dumper_ends_as_direct h hd
  exact ⟨dumper, h, hd, hasType_sapling, hagrees sapling rfl,
    hunhooked (fun _ => rfl) sapling hasType_sapling⟩

end TreeCodec
