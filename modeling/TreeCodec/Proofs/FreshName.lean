import Mathlib.Data.List.Nodup
import Mathlib.Data.List.Perm.Subperm
import TreeCodec.Proofs.Growth
import TreeCodec.Proofs.Lists

/-!
The names that a guard reserves were free.
-/
namespace TreeCodec

theorem toString_injective {k l : Nat} (h : toString k = toString l) : k = l := by
  have h := congrArg String.toList h
  rw [Nat.toString_eq_repr, Nat.toString_eq_repr, Nat.toList_repr, Nat.toList_repr] at h
  have hk := Nat.ofDigitChars_toDigits (b := 10) (n := k) (by decide) (by decide)
  have hl := Nat.ofDigitChars_toDigits (b := 10) (n := l) (by decide) (by decide)
  rw [← hk, h, hl]

theorem numbered_injective {name : String} {k l : Nat} (h : numbered name k = numbered name l) :
    k = l := by
  simp only [numbered, String.append_assoc] at h
  exact toString_injective <| String.append_right_inj _ |>.mp <| String.append_right_inj _ |>.mp h

theorem firstFree_mem {taken : List String} {name : String} {n k : Nat}
    (h : firstFree taken name k n ∈ taken) : ∀ i ≤ n, numbered name (k + i) ∈ taken := by
  induction n generalizing k with
  | zero =>
    intro i hi
    rwa [Nat.le_zero.mp hi]
  | succ n ih =>
    unfold firstFree at h
    split at h
    case isFalse hc => exact absurd h (by simpa using hc)
    case isTrue hc =>
      intro i hi
      cases i with
      | zero => simpa using hc
      | succ i =>
        have := ih h i (by omega)
        rwa [show k + (i + 1) = k + 1 + i by omega]

-- There is one candidate more than there are names taken.
theorem freshName_not_mem (taken : List String) (name : String) :
    freshName taken name ∉ taken := by
  unfold freshName
  split
  case isFalse h => simpa using h
  case isTrue =>
    intro h
    have hs : (List.range (taken.length + 1)).map (fun i => numbered name (2 + i)) ⊆ taken := by
      intro x hx
      have ⟨i, hi, he⟩ := List.mem_map.mp hx
      rw [← he]
      exact firstFree_mem h i (by have := List.mem_range.mp hi; omega)
    have hn : ((List.range (taken.length + 1)).map fun i => numbered name (2 + i)).Nodup := by
      refine List.Nodup.map ?_ List.nodup_range
      intro i j he
      have := numbered_injective he
      omega
    have := (List.subperm_of_subset hn hs).length_le
    simp only [List.length_map, List.length_range] at this
    omega

namespace Guard

variable (g : Guard) (key : GuardKey) (wanted : String)

theorem lookup_reserve (key' : GuardKey) :
    (g.reserve key wanted).2.lookup key' =
      if key' = key then some (g.reserve key wanted).1 else g.lookup key' :=
  Keyed.get?_put key' key _ g.entries

theorem names_reserve :
    (g.reserve key wanted).2.names = (g.reserve key wanted).1 :: g.names :=
  rfl

theorem reserve_not_mem : (g.reserve key wanted).1 ∉ g.names :=
  freshName_not_mem g.names wanted

variable {g key}

theorem remaining_reserve_lt {keys : List GuardKey} (hk : key ∈ keys) (hn : g.lookup key = none) :
    (g.reserve key wanted).2.remaining keys < g.remaining keys := by
  refine countP_lt_countP (fun k h => ?_) hk (by simp [hn]) (by simp [lookup_reserve])
  rw [lookup_reserve] at h
  split at h <;> simp_all

end Guard

-- A target that was reserved is compiled after those within it.
theorem Grows.of_reserve {s : Settings} {g g' : Guard} {key : GuardKey} {wanted : String}
    {new : List Procedure} {p : Procedure} (hn : g.lookup key = none)
    (h : Grows s (g.reserve key wanted).2 g' new) (hp : p.name = (g.reserve key wanted).1)
    (hfor : ProcedureFor s g'.lookup key p) : Grows s g g' (new ++ [p]) where
  names    := fun _ hm => h.names (List.mem_cons_of_mem _ hm)
  kept     := by
    intro key' name hs
    apply h.kept key' name
    rw [Guard.lookup_reserve, if_neg]
    · exact hs
    · rintro rfl
      simp [hn] at hs
  covered  := by
    intro key' name hn' hs
    by_cases he : key' = key
    · have hk : g'.lookup key = some (g.reserve key wanted).1 :=
        h.kept key _ (by rw [Guard.lookup_reserve, if_pos rfl])
      refine ⟨p, by simp, ?_, he ▸ hfor⟩
      rw [he, hk] at hs
      exact hp.trans (Option.some.inj hs)
    · have ⟨q, hq, hname, hqf⟩ := h.covered key' name (by rw [Guard.lookup_reserve, if_neg he, hn']) hs
      exact ⟨q, List.mem_append_left _ hq, hname, hqf⟩
  made     := by
    intro q hq
    rcases List.mem_append.mp hq with hq | hq
    · have ⟨key', hn', hs, hqf⟩ := h.made q hq
      refine ⟨key', ?_, hs, hqf⟩
      rw [Guard.lookup_reserve] at hn'
      split at hn' <;> simp_all
    · rw [List.mem_singleton.mp hq]
      refine ⟨key, hn, ?_, hfor⟩
      rw [hp]
      exact h.kept key _ (by rw [Guard.lookup_reserve, if_pos rfl])
  fresh    := by
    intro q hq hm
    rcases List.mem_append.mp hq with hq | hq
    · exact h.fresh q hq (List.mem_cons_of_mem _ hm)
    · rw [List.mem_singleton.mp hq, hp] at hm
      exact g.reserve_not_mem key wanted hm
  reserved := by
    intro q hq
    rcases List.mem_append.mp hq with hq | hq
    · exact h.reserved q hq
    · rw [List.mem_singleton.mp hq, hp]
      exact h.names (List.mem_cons_self ..)
  distinct := by
    rw [List.map_append]
    refine List.nodup_append.mpr ⟨h.distinct, by simp, fun name hm name' hm' he => ?_⟩
    have ⟨q, hq, hqn⟩ := List.mem_map.mp hm
    apply h.fresh q hq
    rw [hqn, he, List.mem_singleton.mp hm', hp]
    exact List.mem_cons_self ..

end TreeCodec
