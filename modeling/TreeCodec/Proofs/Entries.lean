import TreeCodec.Proofs.Typing

/-!
Lists of entries with different keys, which are put together one after the other without a loss.
-/
namespace TreeCodec

variable {κ α : Type}

-- Entries that are put at the end, one after the other, where the keys before them are in relation
-- `R` to theirs.
theorem foldl_put_eq_self {R : κ → κ → Prop} {put : κ → α → List (κ × α) → List (κ × α)}
    (hput : ∀ k v out, (∀ e ∈ out, R e.1 k) → put k v out = out ++ [(k, v)])
    {es : List (κ × α)} (h : (es.map Prod.fst).Pairwise R) :
    es.foldl (fun out (k, v) => put k v out) [] = es := by
  have hfold : ∀ out : List (κ × α), ((out ++ es).map Prod.fst).Pairwise R →
      es.foldl (fun out (k, v) => put k v out) out = out ++ es := by
    clear h
    induction es with
    | nil => exact fun out _ => (List.append_nil out).symm
    | cons e es ih =>
      intro out h
      have hout : ∀ e' ∈ out, R e'.1 e.1 := by
        rw [List.map_append, List.pairwise_append] at h
        exact fun e' he' => h.right.right _ (List.mem_map_of_mem he') _ (List.mem_cons_self ..)
      have hcons : out ++ e :: es = out ++ [e] ++ es := by simp
      rw [hcons] at h ⊢
      rw [← ih _ h, List.foldl_cons]
      exact congrArg (List.foldl _ · es) (hput e.1 e.2 out hout)
  exact hfold [] h

namespace Keyed

variable [DecidableEq κ] {es : List (κ × α)}

theorem put_of_not_mem {k : κ} (v : α) (h : ∀ e ∈ es, e.1 ≠ k) : put k v es = es ++ [(k, v)] := by
  induction es with
  | nil => rfl
  | cons e es ih =>
    rw [put, if_neg (h e (List.mem_cons_self ..)), ih fun e he => h e (List.mem_cons_of_mem _ he)]
    rfl

theorem ofList_eq_self (h : (keys es).Nodup) : ofList es = es :=
  foldl_put_eq_self (fun _ v _ hout => put_of_not_mem v hout) h

theorem get?_of_mem {k : κ} {v : α} (h : (keys es).Nodup) (hm : (k, v) ∈ es) :
    get? k es = some v := by
  induction es with
  | nil => nomatch hm
  | cons e es ih =>
    have ⟨hn, h⟩ := List.nodup_cons.mp h
    rcases List.mem_cons.mp hm with rfl | hm
    · exact if_pos rfl
    · have hne : e.1 ≠ k := by
        rintro rfl
        exact hn <| List.mem_map.mpr ⟨_, hm, rfl⟩
      rw [get?, if_neg hne, ih h hm]

end Keyed

namespace Schema

variable {S : Schema} {s : ScalarTy} {k l : Value}

-- Scalars are one key if they are equal.
theorem sameKey_scalar (hk : S.HasType (.scalar s) k) (hl : S.HasType (.scalar s) l) :
    S.sameKey k l = decide (k = l) := by
  cases hk <;> cases hl <;> rfl

theorem compare_gt_of_lt {α : Type} [Ord α] [Std.OrientedOrd α] {a b : α} (h : compare a b = .lt) :
    compare b a = .gt :=
  Std.OrientedCmp.gt_iff_lt.mpr h

theorem order_gt_of_lt (hk : S.HasType (.scalar s) k) (hl : S.HasType (.scalar s) l)
    (h : k.order l = .lt) : l.order k = .gt := by
  cases hk <;> cases hl
  case text.text s t => exact compare_gt_of_lt (show compare s t = .lt from h)
  all_goals first
    | nomatch ‹S.shape (.scalar _) = .dynamic›
    | simp only [Value.order] at h ⊢
      exact compare_gt_of_lt h

theorem putEntry_of_apart (v : Value) {es : List (Value × Value)} (h : ∀ e ∈ es, ¬S.sameKey e.1 k) :
    S.putEntry k v es = es ++ [(k, v)] := by
  induction es with
  | nil => rfl
  | cons e es ih =>
    have hrest := ih fun e he => h e (List.mem_cons_of_mem _ he)
    rw [putEntry, if_neg (h e (List.mem_cons_self ..)), hrest]
    rfl

theorem putOrdered_of_above (v : Value) {es : List (Value × Value)}
    (h : ∀ e ∈ es, k.order e.1 = .gt) : Value.putOrdered k v es = es ++ [(k, v)] := by
  induction es with
  | nil => rfl
  | cons e es ih =>
    simp only [Value.putOrdered, h e (List.mem_cons_self ..)]
    rw [ih fun e he => h e (List.mem_cons_of_mem _ he)]
    rfl

-- Scalars are apart if they differ.
theorem keysApart_unordered_iff {ks : List Value} (h : ∀ k ∈ ks, S.HasType (.scalar s) k) :
    S.KeysApart .unordered ks ↔ ks.Nodup := by
  refine List.Pairwise.iff_of_mem fun hk hl => ?_
  simp [sameKey_scalar (h _ hk) (h _ hl)]

theorem KeysApart.nodup {kind : MapKind} {ks : List Value} (h : S.KeysApart kind ks)
    (hs : ∀ k ∈ ks, S.HasType (.scalar s) k) : ks.Nodup := by
  cases kind with
  | unordered => exact (keysApart_unordered_iff hs).mp h
  | ordered =>
    refine List.Pairwise.imp_of_mem ?_ h
    rintro k _ hk - hlt rfl
    have hgt := order_gt_of_lt (hs k hk) (hs k hk) hlt
    rw [hlt] at hgt
    nomatch hgt

-- Entries that make up a map stay as they are when they are put into it.
theorem collect_eq_self {kind : MapKind} {es : List (Value × Value)}
    (hs : ∀ k ∈ es.map Prod.fst, S.HasType (.scalar s) k)
    (h : S.KeysApart kind (es.map Prod.fst)) : S.collect kind es = es := by
  cases kind with
  | unordered => exact foldl_put_eq_self (fun _ v _ hout => putEntry_of_apart v hout) h
  | ordered =>
    refine foldl_put_eq_self (R := fun k l => l.order k = .gt)
      (fun _ v _ hout => putOrdered_of_above v hout) (List.Pairwise.imp_of_mem ?_ h)
    exact fun hk hl hlt => order_gt_of_lt (hs _ hk) (hs _ hl) hlt

end Schema
end TreeCodec
