import Mathlib.Data.List.Forall2
import Mathlib.Data.List.Nodup

/-!
Lists: what the elements of one tell of those of another one.
-/
namespace TreeCodec

theorem exists_of_forall₂ {α β : Type} {R : α → β → Prop} {as : List α} {bs : List β}
    (h : List.Forall₂ R as bs) : ∀ a ∈ as, ∃ b ∈ bs, R a b := by
  induction h with
  | nil => nofun
  | cons hr _ ih =>
    intro a ha
    rcases List.mem_cons.mp ha with rfl | ha
    · exact ⟨_, List.mem_cons_self .., hr⟩
    · have ⟨b, hb, hr⟩ := ih a ha
      exact ⟨b, List.mem_cons_of_mem _ hb, hr⟩

theorem getElem?_of_forall₂ {α β : Type} {R : α → β → Prop} {as : List α} {bs : List β}
    (h : List.Forall₂ R as bs) (i : Nat) :
    (as[i]? = none ∧ bs[i]? = none) ∨ ∃ a b, as[i]? = some a ∧ bs[i]? = some b ∧ R a b := by
  induction h generalizing i with
  | nil => simp
  | cons h _ ih =>
    cases i with
    | zero => exact .inr ⟨_, _, rfl, rfl, h⟩
    | succ i => simpa using ih i

theorem exists_getElem?_of_forall₂ {α β : Type} {R : α → β → Prop} {as : List α} {bs : List β}
    (h : List.Forall₂ R as bs) {i : Nat} {a : α} (ha : as[i]? = some a) :
    ∃ b, bs[i]? = some b ∧ R a b := by
  rcases getElem?_of_forall₂ h i with ⟨hn, _⟩ | ⟨a', b, ha', hb, hr⟩
  · simp [hn] at ha
  · exact ⟨b, hb, Option.some.inj (ha.symm.trans ha') ▸ hr⟩

theorem forall₂_maps {α β γ : Type} {R : β → γ → Prop} {f : α → β} {g : α → γ} {as : List α}
    (h : ∀ a ∈ as, R (f a) (g a)) : List.Forall₂ R (as.map f) (as.map g) := by
  rw [List.forall₂_map_left_iff, List.forall₂_map_right_iff, List.forall₂_same]
  exact h

theorem exists_map {α γ : Type} {f : γ → α} {Q : γ → Prop} {as : List α}
    (h : ∀ a ∈ as, ∃ c, f c = a ∧ Q c) : ∃ cs : List γ, cs.map f = as ∧ ∀ c ∈ cs, Q c := by
  induction as with
  | nil => exact ⟨[], rfl, nofun⟩
  | cons a as ih =>
    have ⟨c, hc, hq⟩ := h a (List.mem_cons_self ..)
    have ⟨cs, hcs, hqs⟩ := ih fun a ha => h a (List.mem_cons_of_mem _ ha)
    refine ⟨c :: cs, by rw [List.map_cons, hc, hcs], fun c' hc' => ?_⟩
    rcases List.mem_cons.mp hc' with rfl | hc'
    · exact hq
    · exact hqs c' hc'

-- Rows of two lists of one length, where what is to be in a row comes with the second list.
theorem exists_rows {α β γ : Type} {R : α → β → Prop} {value : γ → β} {P : α → γ → Prop}
    {as : List α} {bs : List β} (h : List.Forall₂ R as bs)
    (hp : ∀ a b, (a, b) ∈ as.zip bs → R a b → ∃ c, value c = b ∧ P a c) :
    ∃ rows : List (α × γ), rows.map Prod.fst = as ∧ (rows.map fun r => value r.2) = bs ∧
      ∀ r ∈ rows, P r.1 r.2 := by
  have ⟨hl, hr⟩ := List.forall₂_iff_zip.mp h
  have hrow : ∀ e ∈ as.zip bs, ∃ r : α × γ, (r.1, value r.2) = e ∧ P r.1 r.2 := by
    rintro ⟨a, b⟩ he
    have ⟨c, hc, hac⟩ := hp a b he (hr he)
    exact ⟨(a, c), by rw [hc], hac⟩
  have ⟨rows, hrows, hall⟩ := exists_map hrow
  refine ⟨rows, ?_, ?_, hall⟩
  · rw [← List.map_fst_zip (Nat.le_of_eq hl), ← hrows, List.map_map]
    rfl
  · rw [← List.map_snd_zip (Nat.le_of_eq hl.symm), ← hrows, List.map_map]
    rfl

theorem forall_mem_iff_of_forall₂ {α β : Type} {R : α → β → Prop} {P : α → Prop} {Q : β → Prop}
    {as : List α} {bs : List β} (h : List.Forall₂ R as bs) (hr : ∀ a b, R a b → (P a ↔ Q b)) :
    (∀ a ∈ as, P a) ↔ ∀ b ∈ bs, Q b := by
  induction h with
  | nil => simp
  | cons h _ ih => rw [List.forall_mem_cons, List.forall_mem_cons, hr _ _ h, ih]

theorem nodup_of_forall₂ {α β : Type} {R : α → β → Prop} {as : List α} {bs : List β}
    (h : List.Forall₂ R as bs) (hr : ∀ a a' b, R a b → R a' b → a = a') (hn : as.Nodup) :
    bs.Nodup := by
  induction h with
  | nil => exact .nil
  | cons hab hs ih =>
    have ⟨hnew, hn⟩ := List.nodup_cons.mp hn
    refine List.nodup_cons.mpr ⟨fun hb => ?_, ih hn⟩
    have ⟨a', ha', hab'⟩ := exists_of_forall₂ hs.flip _ hb
    exact hnew (hr _ _ _ hab hab' ▸ ha')

-- Two orders of one list are one order if the images stand in one order and differ.
theorem eq_of_perm_of_map {α β : Type} {f : α → β} {as bs : List α} (hn : (as.map f).Nodup)
    (hp : as.Perm bs) (h : as.map f = bs.map f) : as = bs := by
  refine List.ext_getElem hp.length_eq fun i ha hb => ?_
  refine List.inj_on_of_nodup_map hn (List.getElem_mem ha) (hp.mem_iff.mpr (List.getElem_mem hb)) ?_
  have hi := congrArg (·[i]?) h
  simpa [ha, hb] using hi

theorem countP_lt_countP {α : Type} {l : List α} {p q : α → Bool} (h : ∀ a, p a → q a) {a : α}
    (ha : a ∈ l) (hq : q a = true) (hp : p a = false) : l.countP p < l.countP q := by
  induction l with
  | nil => nomatch ha
  | cons b l ih =>
    have hle : l.countP p ≤ l.countP q := List.countP_mono_left fun b _ => h b
    simp only [List.countP_cons]
    rcases List.mem_cons.mp ha with rfl | ha
    · simp only [hp, hq, if_true, Bool.false_eq_true, if_false]
      omega
    · have := ih ha
      cases hb : p b with
      | false =>
        simp only [Bool.false_eq_true, if_false]
        omega
      | true =>
        simp only [h b hb, if_true]
        omega

theorem sublist_flatMap {α β : Type} {f : α → List β} {l : List α} {a : α} (h : a ∈ l) :
    (f a).Sublist (l.flatMap f) := by
  rw [List.flatMap_def]
  exact List.sublist_flatten_of_mem (List.mem_map_of_mem h)

-- What each of finitely many things satisfies from a number on, all satisfy from a number on.
theorem exists_forall_le_of_forall {α : Type} {P : α → Nat → Prop} {as : List α}
    (h : ∀ a ∈ as, ∃ N, ∀ n, N ≤ n → P a n) : ∃ N, ∀ a ∈ as, ∀ n, N ≤ n → P a n := by
  induction as with
  | nil => exact ⟨0, nofun⟩
  | cons a as ih =>
    have ⟨ha, has⟩ := List.forall_mem_cons.mp h
    have ⟨N, hN⟩ := ha
    have ⟨M, hM⟩ := ih has
    refine ⟨max N M, List.forall_mem_cons.mpr ⟨fun n hn => ?_, fun b hb n hn => ?_⟩⟩
    · exact hN n (Nat.le_trans (Nat.le_max_left ..) hn)
    · exact hM b hb n (Nat.le_trans (Nat.le_max_right ..) hn)

theorem bind_eq_ok_iff {ε α β : Type} {x : Except ε α} {f : α → Except ε β} {b : β} :
    (x >>= f) = .ok b ↔ ∃ a, x = .ok a ∧ f a = .ok b := by
  cases x <;> simp [bind, Except.bind]

theorem bind_eq_error_iff {ε α β : Type} {x : Except ε α} {f : α → Except ε β} {e : ε} :
    (x >>= f) = .error e ↔ x = .error e ∨ ∃ a, x = .ok a ∧ f a = .error e := by
  cases x <;> simp [bind, Except.bind]

theorem map_eq_ok_iff {ε α β : Type} {x : Except ε α} {f : α → β} {b : β} :
    x.map f = .ok b ↔ ∃ a, x = .ok a ∧ f a = b := by
  cases x <;> simp [Except.map]

theorem map_eq_error_iff {ε α β : Type} {x : Except ε α} {f : α → β} {e : ε} :
    x.map f = .error e ↔ x = .error e := by
  cases x <;> simp [Except.map]

theorem mapM_eq_ok_iff_forall₂ {ε α β : Type} {f : α → Except ε β} {as : List α} {bs : List β} :
    as.mapM f = .ok bs ↔ List.Forall₂ (fun a b => f a = .ok b) as bs := by
  induction as generalizing bs with
  | nil => simp [pure, Except.pure, eq_comm]
  | cons a as ih =>
    simp only [List.mapM_cons, bind_eq_ok_iff, ih, List.forall₂_cons_left_iff]
    constructor
    · rintro ⟨b, hb, bs, hbs, hpure⟩
      exact ⟨b, bs, hb, hbs, (Except.ok.inj hpure).symm⟩
    · rintro ⟨b, bs, hb, hbs, rfl⟩
      exact ⟨b, hb, bs, hbs, rfl⟩

-- The first failure is the one that is seen.
theorem mapM_eq_error_iff {ε α β : Type} {f : α → Except ε β} {as : List α} {e : ε} :
    as.mapM f = .error e ↔ ∃ earlier a later, as = earlier ++ a :: later ∧
      (∀ b ∈ earlier, ∃ c, f b = .ok c) ∧ f a = .error e := by
  induction as with
  | nil => simp [pure, Except.pure]
  | cons a as ih =>
    simp only [List.mapM_cons, bind_eq_error_iff, ih]
    constructor
    · rintro (ha | ⟨c, hc, ⟨earlier, b, later, rfl, hok, hb⟩ | ⟨_, _, hpure⟩⟩)
      · exact ⟨[], a, as, rfl, nofun, ha⟩
      · exact ⟨a :: earlier, b, later, rfl, List.forall_mem_cons.mpr ⟨⟨c, hc⟩, hok⟩, hb⟩
      · nomatch hpure
    · rintro ⟨earlier, b, later, heq, hok, hb⟩
      cases earlier with
      | nil =>
        cases heq
        exact .inl hb
      | cons a' earlier =>
        cases heq
        obtain ⟨⟨c, hc⟩, hok⟩ := List.forall_mem_cons.mp hok
        exact .inr ⟨c, hc, .inl ⟨earlier, b, later, rfl, hok, hb⟩⟩

theorem exists_mapM_eq_ok_iff {ε α β : Type} {f : α → Except ε β} {as : List α} :
    (∃ bs, as.mapM f = .ok bs) ↔ ∀ a ∈ as, ∃ b, f a = .ok b := by
  constructor
  · rintro ⟨bs, h⟩ a ha
    have ⟨b, _, hb⟩ := exists_of_forall₂ (mapM_eq_ok_iff_forall₂.mp h) a ha
    exact ⟨b, hb⟩
  · intro h
    cases hm : as.mapM f with
    | ok bs => exact ⟨bs, rfl⟩
    | error e =>
      obtain ⟨earlier, a, later, rfl, _, ha⟩ := mapM_eq_error_iff.mp hm
      have ⟨b, hb⟩ := h a (by simp)
      nomatch ha.symm.trans hb

theorem mapM_eq_ok {ε α β : Type} {f : α → Except ε β} {g : α → β} {as : List α}
    (h : ∀ a ∈ as, f a = .ok (g a)) : as.mapM f = .ok (as.map g) := by
  rw [mapM_eq_ok_iff_forall₂, List.forall₂_map_right_iff, List.forall₂_same]
  exact h

-- A list of checks gives the list back if all of them succeed.
theorem mapM_eq_ok_iff {ε α : Type} {f : α → Except ε α} {P : α → Prop} {as bs : List α}
    (h : ∀ a b, f a = .ok b ↔ P a ∧ a = b) :
    as.mapM f = .ok bs ↔ (∀ a ∈ as, P a) ∧ as = bs := by
  simp only [mapM_eq_ok_iff_forall₂, h]
  rw [List.forall₂_and_left, List.forall₂_eq_eq_eq]

end TreeCodec
