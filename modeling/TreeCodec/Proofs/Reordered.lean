import Mathlib.Data.List.Perm.Basic
import TreeCodec.Proofs.EntryOrder
import TreeCodec.Proofs.Gives
import TreeCodec.Proofs.Lists
import TreeCodec.Convert.Load

/-!
Trees that differ in the order of entries, and what the rules of the kinds load from them.

Runs over such trees may come to entries in different orders and may stop at different errors. They
agree all the same: if both end, both fail or both give one value.
-/
namespace TreeCodec

/-! ## Trees -/

-- One tree up to the order in which the entries of objects stand.
inductive Tree.Reordered : Tree → Tree → Prop
  | null : Reordered null null
  | bool (b : Bool) : Reordered (bool b) (bool b)
  | number (n : Number) : Reordered (number n) (number n)
  | text (s : String) : Reordered (text s) (text s)
  | array {ts us : List Tree} : List.Forall₂ Reordered ts us → Reordered (array ts) (array us)
  | object {es es' fs : List (String × Tree)} :
    (Keyed.keys es).Nodup → es.Perm es' → es'.map Prod.fst = fs.map Prod.fst →
    List.Forall₂ Reordered (es'.map Prod.snd) (fs.map Prod.snd) → Reordered (object es) (object fs)

-- The same for trees that may be absent.
abbrev Tree.ReorderedInput : Option Tree → Option Tree → Prop :=
  Option.Rel Tree.Reordered

-- What is not an array or an object is the same tree, and neither of these is read as a scalar.
theorem Tree.Reordered.readScalar_eq {t u : Tree} (h : t.Reordered u) (k : ScalarKind) :
    t.readScalar k = u.readScalar k := by
  cases h with
  | array | object => cases k <;> rfl
  | _ => rfl

theorem Keyed.get?_perm {κ α : Type} [DecidableEq κ] {es fs : List (κ × α)} (hn : (keys es).Nodup)
    (h : es.Perm fs) (key : κ) : get? key es = get? key fs := by
  have hn' : (keys fs).Nodup := (h.map Prod.fst).nodup_iff.mp hn
  cases hg : get? key fs with
  | none =>
    have hkeys : (keys es).Perm (keys fs) := h.map Prod.fst
    exact get?_eq_none_iff.mpr <| mt hkeys.mem_iff.mp <| get?_eq_none_iff.mp hg
  | some v => exact get?_of_mem hn <| h.mem_iff.mpr <| mem_of_get? hg

theorem Keyed.Rel.get? {κ α β : Type} [DecidableEq κ] {R : α → β → Prop} {es : List (κ × α)}
    {fs : List (κ × β)} (h : Rel R es fs) (key : κ) :
    Option.Rel R (Keyed.get? key es) (Keyed.get? key fs) := by
  induction h with
  | nil => exact .none
  | @cons e f es fs he _ ih =>
    unfold Keyed.get?
    rw [← he.left]
    split
    case isTrue => exact .some he.right
    case isFalse => exact ih

/-! ## Runs -/

variable {α β γ δ : Type}

-- If both of two runs end, both succeed with values in a relation, or both fail.
inductive Outcome.Agrees (R : α → β → Prop) : Outcome α → Outcome β → Prop
  | done {a : α} {b : β} : R a b → Agrees R (.done a) (.done b)
  | failed (e f : ConversionError) : Agrees R (.failed e) (.failed f)
  | left (o : Outcome β) : Agrees R .unfinished o
  | right (o : Outcome α) : Agrees R o .unfinished

theorem Outcome.Agrees.mapError {R : α → β → Prop} {o : Outcome α} {o' : Outcome β}
    {f g : ConversionError → ConversionError} (h : o.Agrees R o') :
    (o.mapError f).Agrees R (o'.mapError g) := by
  cases h with
  | done h => exact .done h
  | failed => exact .failed _ _
  | left => exact .left _
  | right => exact .right _

namespace Run

def Agrees (R : α → β → Prop) (x : Run α) (y : Run β) : Prop :=
  x.outcome.Agrees R y.outcome

-- A run over a list fails only if the run over an item does.
theorem exists_failed_of_forEach {f : α → Run β} {as : List α} {e : ConversionError} (i : Nat)
    (h : (forEach (fun _ => f) i as).outcome = .failed e) : ∃ a ∈ as, (f a).outcome = .failed e := by
  induction as generalizing i with
  | nil => nomatch h
  | cons a as ih =>
    simp only [forEach, outcome_bind] at h
    cases ha : (f a).outcome with
    | done b =>
      cases has : (forEach (fun _ => f) (i + 1) as).outcome with
      | done bs => simp [Outcome.bind, ha, has] at h
      | failed e' =>
        simp only [Outcome.bind, ha, has, Outcome.failed.injEq] at h
        obtain ⟨a', ha', hf⟩ := ih (i + 1) (h ▸ has)
        exact ⟨a', List.mem_cons_of_mem _ ha', hf⟩
      | unfinished => simp [Outcome.bind, ha, has] at h
    | failed e' =>
      simp only [Outcome.bind, ha, Outcome.failed.injEq] at h
      exact ⟨a, List.mem_cons_self .., h ▸ ha⟩
    | unfinished => simp [Outcome.bind, ha] at h

namespace Agrees

variable {R : α → β → Prop} {Q : γ → δ → Prop} {Q' : γ → γ → Prop} {x : Run α} {y : Run β}

theorem pure {a : α} {b : β} (h : R a b) : Agrees R (Pure.pure a) (Pure.pure b) :=
  .done h

theorem fault (f g : Fault) : Agrees R (Run.fault f) (Run.fault g) :=
  .failed _ _

theorem refl (hr : ∀ a, Q' a a) (z : Run γ) : z.Agrees Q' z := by
  unfold Agrees
  cases z.outcome with
  | done a => exact .done (hr a)
  | failed e => exact .failed e e
  | unfinished => exact .left _

theorem of_outcome_eq {z z' : Run γ} (h : z.outcome = z'.outcome) : z.Agrees Eq z' := by
  unfold Agrees
  rw [h]
  exact refl (fun _ => rfl) z'

theorem ofExcept {x : Except SchemaError α} {y : Except SchemaError β}
    (h : ∀ a, x = .ok a → ∃ b, y = .ok b ∧ R a b) (h' : ∀ b, y = .ok b → ∃ a, x = .ok a) :
    (Run.ofExcept x).Agrees R (Run.ofExcept y) := by
  cases x with
  | ok a =>
    obtain ⟨b, rfl, hr⟩ := h a rfl
    exact pure hr
  | error e =>
    cases y with
    | ok b => nomatch h' b rfl
    | error f => exact fault _ _

theorem bind {f : α → Run γ} {g : β → Run δ} (h : x.Agrees R y)
    (hf : ∀ a b, x.outcome = .done a → y.outcome = .done b → R a b → (f a).Agrees Q (g b)) :
    (x >>= f).Agrees Q (y >>= g) := by
  unfold Agrees at *
  rw [outcome_bind, outcome_bind]
  cases hx : x.outcome <;> cases hy : y.outcome <;> rw [hx, hy] at h <;> cases h
  case done.done ha => exact hf _ _ hx hy ha
  case failed.failed => exact .failed _ _
  all_goals first
    | exact .left _
    | exact .right _

theorem within (step step' : PathStep) (h : x.Agrees R y) :
    (x.within step).Agrees R (y.within step') :=
  h.mapError

theorem through (name name' : String) (h : x.Agrees R y) :
    (x.through name).Agrees R (y.through name') :=
  h.mapError

theorem forEach {f : Nat → α → Run γ} {g : Nat → β → Run δ} {as : List α} {bs : List β}
    (h : List.Forall₂ (fun a b => ∀ i, (f i a).Agrees Q (g i b)) as bs) (i : Nat) :
    (Run.forEach f i as).Agrees (List.Forall₂ Q) (Run.forEach g i bs) := by
  induction h generalizing i with
  | nil => exact pure .nil
  | cons h _ ih =>
    exact (h i).bind fun _ _ _ _ hc => (ih (i + 1)).bind fun _ _ _ _ hcs => pure (.cons hc hcs)

theorem of_done {a : α} {b : β} (h : x.Agrees R y) (hx : x.outcome = .done a)
    (hy : y.outcome = .done b) : R a b := by
  unfold Agrees at h
  rw [hx, hy] at h
  cases h with
  | done h => exact h

theorem not_failed_of_done {a : α} {e : ConversionError} (h : x.Agrees R y)
    (hx : x.outcome = .done a) : y.outcome ≠ .failed e := by
  intro hy
  unfold Agrees at h
  rw [hx, hy] at h
  nomatch h

theorem not_done_of_failed {b : β} {e : ConversionError} (h : x.Agrees R y)
    (hx : x.outcome = .failed e) : y.outcome ≠ .done b := by
  intro hy
  unfold Agrees at h
  rw [hx, hy] at h
  nomatch h

theorem forall₂_of_done {f : α → Run γ} {g : β → Run δ} {as : List α} {bs : List β} {cs : List γ}
    {ds : List δ} (h : List.Forall₂ (fun a b => (f a).Agrees Q (g b)) as bs)
    (hc : List.Forall₂ (fun a c => (f a).outcome = .done c) as cs)
    (hd : List.Forall₂ (fun b d => (g b).outcome = .done d) bs ds) : List.Forall₂ Q cs ds := by
  induction h generalizing cs ds with
  | nil =>
    cases hc
    cases hd
    exact .nil
  | cons h _ ih =>
    cases hc with | cons hc hcs => ?_
    cases hd with | cons hd hds => ?_
    exact .cons (h.of_done hc hd) (ih hcs hds)

-- Runs over the same items in another order: what they give stands in another order too.
theorem forEach_perm {f : α → Run γ} {g : β → Run δ} {as as' : List α} {bs : List β}
    (hp : as.Perm as') (h : List.Forall₂ (fun a b => (f a).Agrees Q (g b)) as' bs) (i j : Nat) :
    (Run.forEach (fun _ => f) i as).Agrees (fun cs ds => ∃ cs', cs.Perm cs' ∧ List.Forall₂ Q cs' ds)
      (Run.forEach (fun _ => g) j bs) := by
  unfold Agrees
  cases hx : (Run.forEach (fun _ => f) i as).outcome <;>
    cases hy : (Run.forEach (fun _ => g) j bs).outcome
  case done.done cs ds =>
    have ⟨cs', hcs', hperm⟩ := List.perm_comp_forall₂ hp.symm ((forEach_done_iff i).mp hx)
    exact .done ⟨cs', hperm.symm, forall₂_of_done h hcs' ((forEach_done_iff j).mp hy)⟩
  case done.failed cs e =>
    have ⟨b, hb, hf⟩ := exists_failed_of_forEach j hy
    have ⟨a, ha, hab⟩ := exists_of_forall₂ h.flip b hb
    have ⟨c, _, hc⟩ := exists_of_forall₂ ((forEach_done_iff i).mp hx) a (hp.mem_iff.mpr ha)
    exact absurd hf (not_failed_of_done hab hc)
  case failed.done e ds =>
    have ⟨a, ha, hf⟩ := exists_failed_of_forEach i hx
    have ⟨b, hb, hab⟩ := exists_of_forall₂ h a (hp.mem_iff.mp ha)
    have ⟨d, _, hd⟩ := exists_of_forall₂ ((forEach_done_iff j).mp hy) b hb
    exact absurd hd (not_done_of_failed hab hf)
  case failed.failed => exact .failed _ _
  all_goals first
    | exact .left _
    | exact .right _

end Agrees
end Run

/-! ## Values -/

namespace Schema

variable (S : Schema) {v w : Value}

-- A construction that looks at the types of values only.
theorem wrapSome_agrees (t : Ty) (h : v.Same w) :
    (Run.ofExcept (S.wrapSome t v)).Agrees Value.Same (Run.ofExcept (S.wrapSome t w)) := by
  unfold wrapSome require
  rw [h.ty_eq]
  split
  case isTrue => exact .pure (.some h)
  case isFalse => exact .fault _ _

theorem wrapBox_agrees (t : Ty) (h : v.Same w) :
    (Run.ofExcept (S.wrapBox t v)).Agrees Value.Same (Run.ofExcept (S.wrapBox t w)) := by
  unfold wrapBox require
  rw [h.ty_eq]
  split
  case isTrue => exact .pure (.boxed h)
  case isFalse => exact .fault _ _

theorem wrapVariant_agrees (t : Ty) (variants : List Variant) (i : Nat) (h : v.Same w) :
    (Run.ofExcept (S.wrapVariant t variants i v)).Agrees Value.Same
      (Run.ofExcept (S.wrapVariant t variants i w)) := by
  unfold wrapVariant VariantValue.take
  dsimp only
  split
  case h_1 =>
    rw [h.ty_eq]
    split
    case isTrue => exact .pure (.union h)
    case isFalse => exact .fault _ _
  case h_2 => exact .fault _ _

variable {S}

theorem buildList_agrees (t item : Ty) {vs ws : List Value} (h : List.Forall₂ Value.Same vs ws) :
    (Run.ofExcept (S.buildList t item vs)).Agrees Value.Same
      (Run.ofExcept (S.buildList t item ws)) := by
  have hty : (∀ v ∈ vs, v.ty = item) ↔ ∀ w ∈ ws, w.ty = item :=
    forall_mem_iff_of_forall₂ h fun _ _ hvw => by rw [hvw.ty_eq]
  refine .ofExcept (fun v hv => ?_) fun w hw => ?_
  · obtain ⟨hvs, _, _, rfl, rfl⟩ := buildList_eq_ok_iff.mp hv
    exact ⟨_, buildList_eq_ok_iff.mpr ⟨hty.mp hvs, _, _, rfl, rfl⟩, .list h⟩
  · obtain ⟨hws, _, _, rfl, rfl⟩ := buildList_eq_ok_iff.mp hw
    exact ⟨_, buildList_eq_ok_iff.mpr ⟨hty.mpr hws, _, _, rfl, rfl⟩⟩

theorem construct_agrees (t : Ty) {vs ws : List Value} (h : List.Forall₂ Value.Same vs ws) :
    (Run.ofExcept (S.construct t vs)).Agrees Value.Same (Run.ofExcept (S.construct t ws)) := by
  have hty := Value.map_ty_eq_of_same h
  refine .ofExcept (fun v hv => ?_) fun w hw => ?_
  · rcases construct_eq_ok_iff.mp hv with ⟨id, fields, p, ht, hs, hvs, rfl⟩ | ⟨ts, hs, hvs, rfl⟩
    · have hw := construct_eq_ok_iff.mpr <| .inl ⟨id, fields, p, ht, hs, hty ▸ hvs, rfl⟩
      exact ⟨_, hw, .record h⟩
    · exact ⟨_, construct_eq_ok_iff.mpr <| .inr ⟨ts, hs, hty ▸ hvs, rfl⟩, .tuple h⟩
  · rcases construct_eq_ok_iff.mp hw with ⟨id, fields, p, ht, hs, hws, _⟩ | ⟨ts, hs, hws, _⟩
    · exact ⟨_, construct_eq_ok_iff.mpr <| .inl ⟨id, fields, p, ht, hs, hty ▸ hws, rfl⟩⟩
    · exact ⟨_, construct_eq_ok_iff.mpr <| .inr ⟨ts, hs, hty ▸ hws, rfl⟩⟩

theorem buildMap_agrees {s : ScalarTy} (t : Ty) (kind : MapKind) (key value : Ty)
    {es es' fs : List (Value × Value)} (hk : S.ScalarKeys s (es.map Prod.fst)) (hp : es.Perm es')
    (hr : Keyed.Rel Value.Same es' fs) :
    (Run.ofExcept (S.buildMap t kind key value es)).Agrees Value.Same
      (Run.ofExcept (S.buildMap t kind key value fs)) := by
  have hty : (∀ e ∈ es, e.1.ty = key ∧ e.2.ty = value) ↔ ∀ f ∈ fs, f.1.ty = key ∧ f.2.ty = value := by
    simp only [hp.mem_iff]
    exact forall_mem_iff_of_forall₂ hr fun _ _ hef => by rw [hef.left, hef.right.ty_eq]
  refine .ofExcept (fun v hv => ?_) fun w hw => ?_
  · obtain ⟨hes, ht, rfl⟩ := buildMap_eq_ok_iff.mp hv
    exact ⟨_, buildMap_eq_ok_iff.mpr ⟨hty.mp hes, ht, rfl⟩, same_collect hk hp hr⟩
  · obtain ⟨hfs, ht, rfl⟩ := buildMap_eq_ok_iff.mp hw
    exact ⟨_, buildMap_eq_ok_iff.mpr ⟨hty.mpr hfs, ht, rfl⟩⟩

end Schema

/-! ## Rules -/

-- Rules that agree on trees that differ in the order of entries.
def Load.Rule.Agrees (r r' : Load.Rule) : Prop :=
  ∀ x y, Tree.ReorderedInput x y → (r x).Agrees Value.Same (r' y)

namespace Load

variable {S : Schema} {r r' : Rule} {x y : Option Tree}

theorem required_agrees (h : Tree.ReorderedInput x y) :
    (required x).Agrees Tree.Reordered (required y) := by
  cases h with
  | none => exact .fault _ _
  | some h => exact .pure h

theorem scalar_agrees (s : ScalarTy) : (scalar s).Agrees (scalar s) := by
  intro x y h
  refine (required_agrees h).bind fun t u _ _ h => ?_
  rw [h.readScalar_eq]
  exact .refl .refl _

theorem optional_agrees (t : Ty) (h : r.Agrees r') : (optional S t r).Agrees (optional S t r') := by
  intro x y hxy
  cases hxy with
  | none => exact .pure (.refl _)
  | some htree =>
    have hrest := (h _ _ (.some htree)).bind fun _ _ _ _ hv => S.wrapSome_agrees t hv
    cases htree with
    | null => exact .pure (.refl _)
    | _ => exact hrest

theorem boxed_agrees (t : Ty) (h : r.Agrees r') : (boxed S t r).Agrees (boxed S t r') :=
  fun x y hxy => (h x y hxy).bind fun _ _ _ _ hv => S.wrapBox_agrees t hv

theorem list_agrees (t item : Ty) (h : r.Agrees r') :
    (list S t item r).Agrees (list S t item r') := by
  intro x y hxy
  refine (required_agrees hxy).bind fun t u _ _ htree => ?_
  cases htree with
  | array hitems =>
    refine (Run.Agrees.forEach (hitems.imp fun _ _ hi i => ?_) 0).bind fun _ _ _ _ hvs =>
      Schema.buildList_agrees _ _ hvs
    exact (h _ _ (.some hi)).within _ _
  | _ => exact .fault _ _

-- Two rules read texts as the same scalars of a type, different texts as different ones.
structure ReadKeys (S : Schema) (s : ScalarTy) (r r' : Rule) : Prop where
  same      : ∀ text, (r (some (.text text))).outcome = (r' (some (.text text))).outcome
  typed     : ∀ text k, (r (some (.text text))).outcome = .done k → S.HasType (.scalar s) k
  injective : ∀ text text' k, (r (some (.text text))).outcome = .done k →
    (r (some (.text text'))).outcome = .done k → text = text'

-- An entry of a map, loaded from one of an object.
def mapEntry (k r : Rule) (e : String × Tree) : Run (Value × Value) := do
  let l ← (k (some (.text e.1))).within (.key e.1)
  let v ← (r (some e.2)).within (.key e.1)
  return (l, v)

theorem mapEntry_key {k r : Rule} {e : String × Tree} {f : Value × Value}
    (h : (mapEntry k r e).outcome = .done f) : (k (some (.text e.1))).outcome = .done f.1 := by
  simp only [mapEntry, Run.outcome_bind, Run.outcome_within, Run.outcome_pure] at h
  cases hk : (k (some (.text e.1))).outcome <;> cases hv : (r (some e.2)).outcome <;>
    simp [hk, hv, Outcome.bind, Outcome.mapError] at h
  rw [← h]

theorem ReadKeys.scalarKeys {k k' r : Rule} {s : ScalarTy} (h : ReadKeys S s k k')
    {es : List (String × Tree)} {fs : List (Value × Value)} (hn : (Keyed.keys es).Nodup)
    (hf : List.Forall₂ (fun e f => (mapEntry k r e).outcome = .done f) es fs) :
    S.ScalarKeys s (fs.map Prod.fst) := by
  have hkeys : List.Forall₂ (fun name l => (k (some (.text name))).outcome = .done l)
      (Keyed.keys es) (fs.map Prod.fst) :=
    List.forall₂_map_left_iff.mpr <| List.forall₂_map_right_iff.mpr <| hf.imp fun _ _ => mapEntry_key
  constructor
  case typed =>
    intro l hl
    have ⟨name, _, hname⟩ := exists_of_forall₂ hkeys.flip l hl
    exact h.typed name l hname
  case distinct => exact nodup_of_forall₂ hkeys h.injective hn

theorem mapEntry_agrees {k k' : Rule} {s : ScalarTy} (hk : ReadKeys S s k k') (h : r.Agrees r')
    {e f : String × Tree} (he : e.1 = f.1 ∧ e.2.Reordered f.2) :
    (mapEntry k r e).Agrees (fun p q => p.1 = q.1 ∧ p.2.Same q.2) (mapEntry k' r' f) := by
  obtain ⟨name, t⟩ := e
  obtain ⟨_, u⟩ := f
  obtain ⟨rfl, htu⟩ := he
  refine ((Run.Agrees.of_outcome_eq (hk.same name)).within _ _).bind fun l _ _ _ hl => ?_
  exact ((h _ _ (.some htu)).within _ _).bind fun v w _ _ hv => .pure ⟨hl, hv⟩

theorem map_agrees {k k' : Rule} {s : ScalarTy} (t key value : Ty) (kind : MapKind)
    (hk : ReadKeys S s k k') (h : r.Agrees r') :
    (map S t kind key value k r).Agrees (map S t kind key value k' r') := by
  intro x y hxy
  refine (required_agrees hxy).bind fun t u _ _ htree => ?_
  cases htree with
  | object hn hp hkeys hvalues =>
    have hrel := Keyed.rel_iff.mpr ⟨hkeys, hvalues⟩
    have hentries := Run.Agrees.forEach_perm hp (hrel.imp fun _ _ => mapEntry_agrees hk h) 0 0
    refine hentries.bind fun es fs hes _ ⟨es', hperm, hef⟩ => ?_
    have hkeys := hk.scalarKeys hn <| (Run.forEach_done_iff 0).mp hes
    exact Schema.buildMap_agrees _ _ _ _ hkeys hperm hef
  | _ => exact .fault _ _

theorem firstOf_agrees (t : Ty) (variants : List Variant) {rs rs' : List Rule} {a b : Tree}
    (hr : List.Forall₂ Rule.Agrees rs rs') (h : a.Reordered b) (i : Nat) :
    (firstOf S t variants a i rs).Agrees Value.Same (firstOf S t variants b i rs') := by
  induction hr generalizing i with
  | nil => exact .fault _ _
  | @cons r r' rs rs' hr _ ih =>
    have htried := hr _ _ (.some h)
    unfold firstOf
    dsimp only
    unfold Run.Agrees at htried
    cases hx : (r (some a)).outcome <;> cases hy : (r' (some b)).outcome <;>
      rw [hx, hy] at htried <;> cases htried
    case done.done hv => exact S.wrapVariant_agrees t variants i hv
    case failed.failed => exact ih (i + 1)
    all_goals first
      | exact .left _
      | exact .right _

theorem union_agrees (t : Ty) (variants : List Variant) {rs rs' : List Rule}
    (hr : List.Forall₂ Rule.Agrees rs rs') :
    (union S t variants rs).Agrees (union S t variants rs') :=
  fun _ _ hxy => (required_agrees hxy).bind fun _ _ _ _ h => firstOf_agrees t variants hr h 0

/-! ## Parts and checks -/

theorem entry_agrees (key : String) (h : Tree.ReorderedInput x y) :
    (entry key x).Agrees Tree.ReorderedInput (entry key y) := by
  cases h with
  | none => exact .fault _ _
  | some htree =>
    cases htree with
    | object hn hp hkeys hvalues =>
      refine .pure ?_
      rw [Keyed.get?_perm hn hp key]
      exact Keyed.Rel.get? (Keyed.rel_iff.mpr ⟨hkeys, hvalues⟩) key
    | _ => exact .fault _ _

theorem element_agrees (i : Nat) (h : Tree.ReorderedInput x y) :
    (element i x).Agrees Tree.ReorderedInput (element i y) := by
  cases h with
  | none => exact .fault _ _
  | some htree =>
    cases htree with
    | array hitems =>
      refine .pure ?_
      rcases getElem?_of_forall₂ hitems i with ⟨ht, hu⟩ | ⟨t, u, ht, hu, h⟩ <;> rw [ht, hu]
      · exact .none
      · exact .some h
    | _ => exact .fault _ _

theorem checkMapping_agrees (h : Tree.ReorderedInput x y) :
    (checkMapping x).Agrees Eq (checkMapping y) := by
  refine (required_agrees h).bind fun t u _ _ htree => ?_
  cases htree with
  | object => exact .pure rfl
  | _ => exact .fault _ _

theorem checkSequence_agrees (min len : Nat) (h : Tree.ReorderedInput x y) :
    (checkSequence min len x).Agrees Eq (checkSequence min len y) := by
  refine (required_agrees h).bind fun t u _ _ htree => ?_
  cases htree with
  | array hitems =>
    dsimp only
    rw [hitems.length_eq]
    exact .refl (fun _ => rfl) _
  | _ => exact .fault _ _

-- An unknown key is found in both trees or in none, though not always the same one.
theorem checkKeys_agrees (known : List String) (h : Tree.ReorderedInput x y) :
    (checkKeys known x).Agrees Eq (checkKeys known y) := by
  cases h with
  | none => exact .pure rfl
  | some htree =>
    cases htree with
    | @object es es' fs hn hp hkeys hvalues =>
      have hmem (k : String) : k ∈ Keyed.keys es ↔ k ∈ Keyed.keys fs := by
        unfold Keyed.keys
        rw [← hkeys, (hp.map Prod.fst).mem_iff]
      have hnone : (Keyed.keys es).find? (fun k => !known.contains k) = none ↔
          (Keyed.keys fs).find? (fun k => !known.contains k) = none := by
        simp only [List.find?_eq_none, hmem]
      simp only [checkKeys]
      cases hx : (Keyed.keys es).find? fun k => !known.contains k with
      | none =>
        rw [hnone.mp hx]
        exact .pure rfl
      | some k =>
        cases hy : (Keyed.keys fs).find? fun k => !known.contains k with
        | none => exact absurd (hx ▸ hnone.mpr hy) nofun
        | some l => exact .failed _ _
    | _ => exact .pure rfl

end Load
end TreeCodec
