import TreeCodec.Proofs.FreshName

/-!
Names that are reserved one after the other.

A name is searched for among the one that is wanted and its numbered forms. Finitely many names are
taken and no two numbered forms are alike, so the search ends, and it ends with the first form that
is free. No two keys get one name, also where a wanted name looks like a numbered one.
-/
namespace TreeCodec

/-! ## The search for a name -/

-- A search that goes from one candidate to the next until one is free. It is at `name`, and `k` is
-- the number of the candidate after it.
inductive Search (taken : List String) (wanted : String) : String → Nat → String → Prop
  | free {name : String} {k : Nat} (hn : name ∉ taken) : Search taken wanted name k name
  | next {name result : String} {k : Nat} (hn : name ∈ taken)
      (hs : Search taken wanted (numbered wanted k) (k + 1) result) :
    Search taken wanted name k result

-- The wanted name if it is free, or else the numbered one with the least number from 2 on that is.
inductive FirstFree (taken : List String) (wanted : String) : String → Prop
  | plain (hw : wanted ∉ taken) : FirstFree taken wanted wanted
  | suffixed {k : Nat} (hw : wanted ∈ taken) (hk : 2 ≤ k) (hn : numbered wanted k ∉ taken)
      (hl : ∀ j, 2 ≤ j → j < k → numbered wanted j ∈ taken) :
    FirstFree taken wanted (numbered wanted k)

theorem ne_numbered (name : String) (k : Nat) : name ≠ numbered name k := by
  intro h
  have hlen := congrArg String.length h
  simp only [numbered, String.length_append] at hlen
  have : "_".length = 1 := rfl
  omega

section

variable {taken taken' : List String} {wanted name result : String} {k : Nat}

theorem search_firstFree {n : Nat} (h : firstFree taken wanted k n ∉ taken) :
    Search taken wanted (numbered wanted k) (k + 1) (firstFree taken wanted k n) := by
  induction n generalizing k with
  | zero => exact .free h
  | succ n ih =>
    unfold firstFree at h ⊢
    split at h
    case isTrue hc =>
      rw [if_pos hc]
      exact .next (List.contains_iff_mem.mp hc) (ih h)
    case isFalse hc =>
      rw [if_neg hc]
      exact .free h

theorem search_freshName (taken : List String) (wanted : String) :
    Search taken wanted wanted 2 (freshName taken wanted) := by
  have hfresh := freshName_not_mem taken wanted
  unfold freshName at hfresh ⊢
  split at hfresh
  case isTrue hc =>
    rw [if_pos hc]
    exact .next (List.contains_iff_mem.mp hc) (search_firstFree hfresh)
  case isFalse hc =>
    rw [if_neg hc]
    exact .free hfresh

namespace Search

theorem congr (h : Search taken wanted name k result) (ht : ∀ x, x ∈ taken ↔ x ∈ taken') :
    Search taken' wanted name k result := by
  induction h with
  | free hn => exact .free <| (not_congr (ht _)).mp hn
  | next hn _ ih => exact .next ((ht _).mp hn) ih

theorem numbered_cases (h : Search taken wanted name k result) :
    (name ∉ taken ∧ result = name) ∨ name ∈ taken ∧ ∃ i, k ≤ i ∧ result = numbered wanted i ∧
      numbered wanted i ∉ taken ∧ ∀ j, k ≤ j → j < i → numbered wanted j ∈ taken := by
  induction h with
  | free hn => exact .inl ⟨hn, rfl⟩
  | @next name result k hn _ ih =>
    refine .inr ⟨hn, ?_⟩
    rcases ih with ⟨hfree, rfl⟩ | ⟨hk, i, hi, rfl, hfree, hl⟩
    · exact ⟨k, Nat.le_refl k, rfl, hfree, fun j hj hlt => absurd hj (Nat.not_le.mpr hlt)⟩
    · refine ⟨i, Nat.le_of_succ_le hi, rfl, hfree, fun j hj hlt => ?_⟩
      rcases Nat.eq_or_lt_of_le hj with rfl | hj
      · exact hk
      · exact hl j hj hlt

theorem firstFree (h : Search taken wanted wanted 2 result) : FirstFree taken wanted result := by
  rcases h.numbered_cases with ⟨hn, rfl⟩ | ⟨hn, i, hi, rfl, hfree, hl⟩
  · exact .plain hn
  · exact .suffixed hn hi hfree hl

end Search

-- The wanted name and the numbered ones below the least free one are taken, so there are no more of
-- them than names.
theorem number_le (hw : wanted ∈ taken) (hl : ∀ j, 2 ≤ j → j < k → numbered wanted j ∈ taken) :
    k ≤ taken.length + 1 := by
  have hnodup : (wanted :: (List.range (k - 2)).map fun i => numbered wanted (2 + i)).Nodup := by
    refine List.nodup_cons.mpr ⟨?_, List.Nodup.map (fun i j he => ?_) List.nodup_range⟩
    · rw [List.mem_map]
      rintro ⟨i, _, he⟩
      exact ne_numbered wanted _ he.symm
    · have := numbered_injective he
      omega
  have hsub : (wanted :: (List.range (k - 2)).map fun i => numbered wanted (2 + i)) ⊆ taken := by
    refine List.cons_subset.mpr ⟨hw, fun name hn => ?_⟩
    have ⟨i, hi, he⟩ := List.mem_map.mp hn
    have := List.mem_range.mp hi
    exact he ▸ hl (2 + i) (by omega) (by omega)
  have := (List.subperm_of_subset hnodup hsub).length_le
  simp only [List.length_cons, List.length_map, List.length_range] at this
  omega

end

/-! ## Calls one after the other -/

namespace Guard

-- Reserves a name for each key, and gives the names in the order of the calls.
def reserveAll (g : Guard) : List (GuardKey × String) → List String × Guard
  | [] => ([], g)
  | (key, wanted) :: calls =>
    let (name, g) := g.reserve key wanted
    let (names, g) := g.reserveAll calls
    (name :: names, g)

variable {g : Guard} {calls : List (GuardKey × String)} {key : GuardKey} {wanted name : String}
variable {i : Nat}

theorem length_reserveAll (g : Guard) (calls : List (GuardKey × String)) :
    (g.reserveAll calls).1.length = calls.length := by
  induction calls generalizing g with
  | nil => rfl
  | cons call calls ih => exact congrArg (· + 1) (ih _)

-- Each call sees the names of the guard and those of the calls before it.
theorem getElem?_reserveAll (h : calls[i]? = some (key, wanted)) :
    (g.reserveAll calls).1[i]? =
      some (freshName (((g.reserveAll calls).1.take i).reverse ++ g.names) wanted) := by
  induction calls generalizing g i with
  | nil => nomatch h
  | cons call calls ih =>
    cases i with
    | zero =>
      cases h
      rfl
    | succ i =>
      have := ih (g := (g.reserve call.1 call.2).2) h
      rw [names_reserve] at this
      simpa [reserveAll] using this

theorem nodup_reserveAll (g : Guard) (calls : List (GuardKey × String)) :
    (g.reserveAll calls).1.Nodup ∧ ∀ name ∈ (g.reserveAll calls).1, name ∉ g.names := by
  induction calls generalizing g with
  | nil => exact ⟨.nil, nofun⟩
  | cons call calls ih =>
    have ⟨hnodup, hfresh⟩ := ih (g.reserve call.1 call.2).2
    rw [names_reserve] at hfresh
    refine ⟨List.nodup_cons.mpr ⟨fun hm => hfresh _ hm (List.mem_cons_self ..), hnodup⟩, ?_⟩
    intro name hn
    rcases List.mem_cons.mp hn with rfl | hn
    · exact g.reserve_not_mem call.1 call.2
    · exact fun hm => hfresh name hn (List.mem_cons_of_mem _ hm)

theorem lookup_reserveAll_of_not_mem (h : key ∉ calls.map Prod.fst) :
    (g.reserveAll calls).2.lookup key = g.lookup key := by
  induction calls generalizing g with
  | nil => rfl
  | cons call calls ih =>
    obtain ⟨hne, h⟩ := not_or.mp <| List.mem_cons.not.mp h
    calc
      ((g.reserve call.1 call.2).2.reserveAll calls).2.lookup key
      _ = (g.reserve call.1 call.2).2.lookup key := ih h
      _ = g.lookup key                           := by rw [lookup_reserve, if_neg hne]

-- What is reserved stays, since no later call is for the same key.
theorem lookup_reserveAll (hk : (calls.map Prod.fst).Nodup) (h : calls[i]? = some (key, wanted)) :
    (g.reserveAll calls).2.lookup key = (g.reserveAll calls).1[i]? := by
  induction calls generalizing g i with
  | nil => nomatch h
  | cons call calls ih =>
    obtain ⟨hn, hk⟩ := List.nodup_cons.mp hk
    cases i with
    | zero =>
      cases h
      calc
        ((g.reserve key wanted).2.reserveAll calls).2.lookup key
        _ = (g.reserve key wanted).2.lookup key := lookup_reserveAll_of_not_mem hn
        _ = some (g.reserve key wanted).1       := by rw [lookup_reserve, if_pos rfl]
    | succ i => exact ih hk h

theorem lookup_reserveAll_empty (hk : (calls.map Prod.fst).Nodup) (key : GuardKey) (name : String) :
    (empty.reserveAll calls).2.lookup key = some name ↔
      ∃ i : Nat, (calls.map Prod.fst)[i]? = some key ∧
        (empty.reserveAll calls).1[i]? = some name := by
  constructor
  case mp =>
    intro h
    by_cases hm : key ∈ calls.map Prod.fst
    case neg => nomatch (lookup_reserveAll_of_not_mem hm).symm.trans h
    case pos =>
      obtain ⟨⟨key, wanted⟩, hc, rfl⟩ := List.mem_map.mp hm
      have ⟨i, hi⟩ := List.getElem?_of_mem hc
      refine ⟨i, ?_, (lookup_reserveAll hk hi).symm.trans h⟩
      rw [List.getElem?_map, hi]
      rfl
  case mpr =>
    rintro ⟨i, hkey, hname⟩
    rw [List.getElem?_map, Option.map_eq_some_iff] at hkey
    obtain ⟨⟨key, wanted⟩, hi, rfl⟩ := hkey
    exact (lookup_reserveAll hk hi).trans hname

-- What some calls with different keys give, one after the other, and the guard after them.
structure Fresh (calls : List (GuardKey × String)) (names : List String) (g : Guard) : Prop where
  -- Each call gives one name.
  answered : names.length = calls.length
  -- The search of a call ends, and its name is the first form that no earlier call gave.
  searched : ∀ {i : Nat} {key wanted name}, calls[i]? = some (key, wanted) →
    names[i]? = some name → Search (names.take i) wanted wanted 2 name
  first    : ∀ {i : Nat} {key wanted name}, calls[i]? = some (key, wanted) →
    names[i]? = some name → FirstFree (names.take i) wanted name
  -- No number is greater than that of the call, counted from 1.
  bounded  : ∀ {i k : Nat} {key wanted}, calls[i]? = some (key, wanted) →
    names[i]? = some (numbered wanted k) → k ≤ i + 1
  distinct : names.Nodup
  -- In the end the keys of the calls have their names, and no other key has one.
  found    : ∀ key name, g.lookup key = some name ↔
    ∃ i : Nat, (calls.map Prod.fst)[i]? = some key ∧ names[i]? = some name
  -- No two keys share a name.
  unshared : ∀ {key key' name}, g.lookup key = some name → g.lookup key' = some name → key = key'

theorem search_reserveAll (h : calls[i]? = some (key, wanted))
    (hn : (empty.reserveAll calls).1[i]? = some name) :
    Search ((empty.reserveAll calls).1.take i) wanted wanted 2 name := by
  cases (getElem?_reserveAll h).symm.trans hn
  refine (search_freshName _ wanted).congr fun x => ?_
  rw [List.mem_append, List.mem_reverse]
  exact or_iff_left nofun

theorem number_reserveAll_le {k : Nat} (h : calls[i]? = some (key, wanted))
    (hn : (empty.reserveAll calls).1[i]? = some (numbered wanted k)) : k ≤ i + 1 := by
  have hfirst := (search_reserveAll h hn).firstFree
  generalize hname : numbered wanted k = name at hfirst
  cases hfirst with
  | plain => exact absurd hname.symm (ne_numbered wanted k)
  | suffixed hw _ _ hl =>
    obtain rfl := numbered_injective hname
    exact Nat.le_trans (number_le hw hl) <| Nat.add_le_add_right (List.length_take_le ..) 1

-- The names that are reserved for different keys are fresh, and no smaller number would do.
theorem reserveAll_fresh (calls : List (GuardKey × String)) (hk : (calls.map Prod.fst).Nodup) :
    Fresh calls (empty.reserveAll calls).1 (empty.reserveAll calls).2 where
  answered := length_reserveAll empty calls
  searched := search_reserveAll
  first    := fun h hn => (search_reserveAll h hn).firstFree
  bounded  := number_reserveAll_le
  distinct := (nodup_reserveAll empty calls).left
  found    := lookup_reserveAll_empty hk
  unshared := by
    intro key key' name h h'
    have ⟨i, hkey, hname⟩ := (lookup_reserveAll_empty hk key name).mp h
    have ⟨j, hkey', hname'⟩ := (lookup_reserveAll_empty hk key' name).mp h'
    have ⟨hi, _⟩ := List.getElem?_eq_some_iff.mp hname
    have hij := (List.getElem?_inj hi (nodup_reserveAll empty calls).left).mp <|
      hname.trans hname'.symm
    exact Option.some.inj <| hkey.symm.trans <| hij ▸ hkey'

-- The second key takes a name that looks like a numbered one, so the third one gets the number 3.
theorem reserveAll_fresh_collision :
    let calls := [(.origin .dynamic, "load_A"), (.origin (.boxed .dynamic), "load_A_2"),
      (.arguments [.dynamic], "load_A")]
    (calls.map Prod.fst).Nodup ∧
      (empty.reserveAll calls).1 = ["load_A", "load_A_2", "load_A_3"] ∧
      Fresh calls (empty.reserveAll calls).1 (empty.reserveAll calls).2 :=
  ⟨by decide, by decide, reserveAll_fresh _ (by decide)⟩

end Guard
end TreeCodec
