import Mathlib.Data.List.Induction
import TreeCodec.Proofs.Entries

/-!
Maps of the same entries are the same, in whatever order the entries come.

The order of keys is a strict order on the scalars of a type, so an ordered map keeps its entries
sorted. The entries of an unordered map stay in the order in which they come, which does not count.
-/
namespace TreeCodec

namespace Keyed

variable {κ α β : Type} {R : α → β → Prop}

-- Entries with the same keys and with values in a relation.
def Rel (R : α → β → Prop) : List (κ × α) → List (κ × β) → Prop :=
  List.Forall₂ fun e f => e.1 = f.1 ∧ R e.2 f.2

theorem rel_iff {es : List (κ × α)} {fs : List (κ × β)} :
    Rel R es fs ↔ es.map Prod.fst = fs.map Prod.fst ∧
      List.Forall₂ R (es.map Prod.snd) (fs.map Prod.snd) := by
  unfold Rel
  induction es generalizing fs with
  | nil => cases fs <;> simp
  | cons e es ih => cases fs <;> simp [ih, and_assoc, and_left_comm]

end Keyed

namespace Schema

variable {S : Schema} {s : ScalarTy} {k l m : Value}

theorem compare_trans {α : Type} [Ord α] [Std.TransOrd α] {a b c : α} (h : compare a b = .lt)
    (h' : compare b c = .lt) : compare a c = .lt :=
  Std.TransCmp.lt_trans h h'

theorem order_trans (hk : S.HasType (.scalar s) k) (hl : S.HasType (.scalar s) l)
    (hm : S.HasType (.scalar s) m) (h : k.order l = .lt) (h' : l.order m = .lt) :
    k.order m = .lt := by
  cases hk <;> cases hl <;> cases hm
  case text.text.text s t u =>
    exact compare_trans (show compare s t = .lt from h) (show compare t u = .lt from h')
  all_goals first
    | cases ‹S.shape (.scalar _) = .dynamic›
    | simp only [Value.order] at h h' ⊢
      exact compare_trans h h'

theorem eq_of_compare {α : Type} [Ord α] [Std.LawfulEqOrd α] {a b : α} (h : compare a b = .eq) :
    a = b :=
  Std.LawfulEqCmp.eq_of_compare h

theorem eq_of_order_eq (hk : S.HasType (.scalar s) k) (hl : S.HasType (.scalar s) l)
    (h : k.order l = .eq) : k = l := by
  cases hk <;> cases hl
  case text.text s t => exact congrArg Value.text (eq_of_compare (show compare s t = .eq from h))
  case bool.bool a b =>
    have h := eq_of_compare h
    revert h
    cases a <;> cases b <;> simp
  case char.char => exact congrArg Value.char (Char.toNat_inj.mp (eq_of_compare h))
  case int.int => exact congrArg (Value.int _) (eq_of_compare h)
  all_goals first
    | cases ‹S.shape (.scalar _) = .dynamic›
    | exact congrArg (fun b => Value.float _ ⟨b⟩) (UInt64.toNat_inj.mp (eq_of_compare h))

theorem compare_lt_of_gt {α : Type} [Ord α] [Std.OrientedOrd α] {a b : α} (h : compare a b = .gt) :
    compare b a = .lt :=
  Std.OrientedCmp.gt_iff_lt.mp h

theorem order_lt_of_gt (hk : S.HasType (.scalar s) k) (hl : S.HasType (.scalar s) l)
    (h : k.order l = .gt) : l.order k = .lt := by
  cases hk <;> cases hl
  case text.text s t => exact compare_lt_of_gt (show compare s t = .gt from h)
  all_goals first
    | cases ‹S.shape (.scalar _) = .dynamic›
    | simp only [Value.order] at h ⊢
      exact compare_lt_of_gt h

-- A new key finds its place among keys in ascending order.
theorem putOrdered_perm (hk : S.HasType (.scalar s) k) (v : Value) {es : List (Value × Value)}
    (hs : ∀ e ∈ es, S.HasType (.scalar s) e.1) (hn : ∀ e ∈ es, e.1 ≠ k) :
    (Value.putOrdered k v es).Perm ((k, v) :: es) := by
  induction es with
  | nil => exact .refl _
  | cons e es ih =>
    obtain ⟨he, hs⟩ := List.forall_mem_cons.mp hs
    obtain ⟨hne, hn⟩ := List.forall_mem_cons.mp hn
    unfold Value.putOrdered
    split
    case h_1 => exact .refl _
    case h_2 heq => exact absurd (eq_of_order_eq hk he heq).symm hne
    case h_3 => exact ((ih hs hn).cons e).trans (.swap ..)

theorem keysApart_putOrdered (hk : S.HasType (.scalar s) k) (v : Value) {es : List (Value × Value)}
    (hs : ∀ e ∈ es, S.HasType (.scalar s) e.1) (hn : ∀ e ∈ es, e.1 ≠ k)
    (h : S.KeysApart .ordered (es.map Prod.fst)) :
    S.KeysApart .ordered ((Value.putOrdered k v es).map Prod.fst) := by
  simp only [KeysApart, List.pairwise_map] at h ⊢
  induction es with
  | nil => exact List.pairwise_singleton ..
  | cons e es ih =>
    obtain ⟨he, hs⟩ := List.forall_mem_cons.mp hs
    obtain ⟨hne, hn⟩ := List.forall_mem_cons.mp hn
    have ⟨habove, hrest⟩ := List.pairwise_cons.mp h
    unfold Value.putOrdered
    split
    case h_1 hlt =>
      refine List.pairwise_cons.mpr ⟨List.forall_mem_cons.mpr ⟨hlt, fun f hf => ?_⟩, h⟩
      exact order_trans hk he (hs f hf) hlt (habove f hf)
    case h_2 heq => exact absurd (eq_of_order_eq hk he heq).symm hne
    case h_3 hgt =>
      refine List.pairwise_cons.mpr ⟨fun f hf => ?_, ih hs hn hrest⟩
      rcases List.mem_cons.mp ((putOrdered_perm hk v hs hn).mem_iff.mp hf) with rfl | hf
      · exact order_lt_of_gt hk he hgt
      · exact habove f hf

-- Scalars of one type, all of them different.
structure ScalarKeys (S : Schema) (s : ScalarTy) (ks : List Value) : Prop where
  typed    : ∀ k ∈ ks, S.HasType (.scalar s) k
  distinct : ks.Nodup

theorem ScalarKeys.perm {ks ls : List Value} (h : S.ScalarKeys s ks) (hp : ks.Perm ls) :
    S.ScalarKeys s ls where
  typed    := fun k hk => h.typed k <| hp.mem_iff.mpr hk
  distinct := hp.nodup_iff.mp h.distinct

-- An ordered map sorts its entries.
theorem collect_ordered {es : List (Value × Value)} (h : S.ScalarKeys s (es.map Prod.fst)) :
    (S.collect .ordered es).Perm es ∧
      S.KeysApart .ordered ((S.collect .ordered es).map Prod.fst) := by
  induction es using List.reverseRecOn with
  | nil => exact ⟨.refl _, .nil⟩
  | append_singleton es e ih =>
    have hput : S.collect .ordered (es ++ [e]) =
        Value.putOrdered e.1 e.2 (S.collect .ordered es) := by
      simp only [collect, List.foldl_append, List.foldl_cons, List.foldl_nil]
    have hcomm : (es ++ [e]).Perm (e :: es) := List.perm_append_comm
    have hcons := h.perm (hcomm.map Prod.fst)
    have ⟨he, hs⟩ := List.forall_mem_cons.mp hcons.typed
    have ⟨hnew, hdistinct⟩ := List.nodup_cons.mp hcons.distinct
    have ⟨hp, hapart⟩ := ih ⟨hs, hdistinct⟩
    have hkey : ∀ f ∈ S.collect .ordered es, f.1 ∈ es.map Prod.fst :=
      fun f hf => List.mem_map_of_mem <| hp.mem_iff.mp hf
    have hs' := fun f hf => hs _ (hkey f hf)
    have hn : ∀ f ∈ S.collect .ordered es, f.1 ≠ e.1 := fun f hf hfe => hnew <| hfe ▸ hkey f hf
    rw [hput]
    refine ⟨?_, keysApart_putOrdered he _ hs' hn hapart⟩
    exact (putOrdered_perm he _ hs' hn).trans <| (hp.cons e).trans hcomm.symm

theorem collect_ordered_congr {es es' : List (Value × Value)}
    (h : S.ScalarKeys s (es.map Prod.fst)) (hp : es.Perm es') :
    S.collect .ordered es = S.collect .ordered es' := by
  have h' := h.perm (hp.map Prod.fst)
  have ⟨hsorted, hapart⟩ := collect_ordered h
  have ⟨hsorted', hapart'⟩ := collect_ordered h'
  simp only [KeysApart, List.pairwise_map] at hapart hapart'
  refine (hsorted.trans <| hp.trans hsorted'.symm).eq_of_pairwise ?_ hapart hapart'
  intro e f he hf hlt hlt'
  have he := h.typed e.1 <| List.mem_map_of_mem <| hsorted.mem_iff.mp he
  have hf := h'.typed f.1 <| List.mem_map_of_mem <| hsorted'.mem_iff.mp hf
  simp [order_gt_of_lt he hf hlt] at hlt'

-- Where an entry is put does not depend on the values.
theorem putOrdered_rel {R : Value → Value → Prop} {es fs : List (Value × Value)} {v w : Value}
    (h : Keyed.Rel R es fs) (hv : R v w) :
    Keyed.Rel R (Value.putOrdered k v es) (Value.putOrdered k w fs) := by
  induction h with
  | nil => exact .cons ⟨rfl, hv⟩ .nil
  | @cons e f es fs he hs ih =>
    obtain ⟨l, v'⟩ := e
    obtain ⟨l', w'⟩ := f
    obtain ⟨rfl, he⟩ := he
    unfold Value.putOrdered
    dsimp only
    cases k.order l with
    | lt => exact .cons ⟨rfl, hv⟩ (.cons ⟨rfl, he⟩ hs)
    | eq => exact .cons ⟨rfl, hv⟩ hs
    | gt => exact .cons ⟨rfl, he⟩ ih

theorem collect_ordered_rel {R : Value → Value → Prop} {es fs : List (Value × Value)}
    (h : Keyed.Rel R es fs) : Keyed.Rel R (S.collect .ordered es) (S.collect .ordered fs) := by
  refine List.rel_foldl (fun out out' hout => ?_) (.nil : Keyed.Rel R [] []) h
  rintro ⟨k, v⟩ ⟨l, w⟩ ⟨rfl, hv⟩
  exact putOrdered_rel hout hv

theorem same_collect {kind : MapKind} {t u : Ty} {es es' fs : List (Value × Value)}
    (h : S.ScalarKeys s (es.map Prod.fst)) (hp : es.Perm es') (hr : Keyed.Rel Value.Same es' fs) :
    (Value.map kind t u (S.collect kind es)).Same (.map kind t u (S.collect kind fs)) := by
  cases kind with
  | ordered =>
    have ⟨hk, hv⟩ := Keyed.rel_iff.mp <| collect_ordered_rel (S := S) hr
    rw [collect_ordered_congr h hp]
    exact .ordered hk hv
  | unordered =>
    have ⟨hk, hv⟩ := Keyed.rel_iff.mp hr
    have hself : ∀ {es : List (Value × Value)}, S.ScalarKeys s (es.map Prod.fst) →
        S.collect .unordered es = es :=
      fun h => collect_eq_self h.typed <| (keysApart_unordered_iff h.typed).mpr h.distinct
    rw [hself h, hself <| hk ▸ h.perm (hp.map Prod.fst)]
    exact .unordered hp hk hv

end Schema
end TreeCodec
