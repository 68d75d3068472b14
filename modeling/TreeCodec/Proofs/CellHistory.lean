import Mathlib.Data.List.Dedup
import Mathlib.Data.List.Induction
import TreeCodec.Store.Cell

/-!
Cells in use.

Of the requests for a type since a cell was last cleared, the first one makes the outcome, be it a
success or a failure. All others get the same outcome and make nothing.
-/
namespace TreeCodec.Cell

-- What is done with a cell. A procedure only gives an outcome, so it cannot use the cell itself.
inductive Use (α : Type) where
  | get (t : Ty) (make : Unit → α)
  | clear

variable {α : Type} {c : Cell α} {t u : Ty} {make : Unit → α}

def apply (c : Cell α) : Use α → Cell α
  | .get t make => (c.get t make).2
  | .clear => c.clear

-- A new cell after some uses.
def after (us : List (Use α)) : Cell α :=
  us.foldl apply empty

-- The requests after the last time that the cell was cleared, each with its procedure.
def requests (us : List (Use α)) : List (Ty × (Unit → α)) :=
  us.foldl (fun rs u =>
    match u with
    | .get t make => rs ++ [(t, make)]
    | .clear => []) []

theorem after_append (us : List (Use α)) (u : Use α) : after (us ++ [u]) = (after us).apply u :=
  List.foldl_concat ..

theorem requests_append_get (us : List (Use α)) (t : Ty) (make : Unit → α) :
    requests (us ++ [.get t make]) = requests us ++ [(t, make)] :=
  List.foldl_concat ..

theorem requests_append_clear (us : List (Use α)) : requests (us ++ [.clear]) = [] :=
  List.foldl_concat ..

-- A cell has one slot for each type that is asked for in some requests, and it is filled with what
-- the procedure of the first request for the type gives.
structure Tracks (c : Cell α) (rs : List (Ty × (Unit → α))) : Prop where
  kept     : ∀ t, (c.kept? t).map Kept.value = (Keyed.get? t rs).map fun make => make ()
  slots    : ∀ t, t ∈ Keyed.keys c.slots.entries ↔ t ∈ Keyed.keys rs
  distinct : (Keyed.keys c.slots.entries).Nodup

namespace Tracks

variable {rs : List (Ty × (Unit → α))}

theorem clear (c : Cell α) : c.clear.Tracks [] :=
  ⟨fun _ => rfl, fun _ => Iff.rfl, List.nodup_nil⟩

theorem holds_iff (h : c.Tracks rs) : c.holds t ↔ t ∈ Keyed.keys rs := by
  have hkept := congrArg Option.isSome (h.kept t)
  rw [Option.isSome_map, Option.isSome_map] at hkept
  rw [holds, hkept, Option.isSome_iff_ne_none, ne_eq, Keyed.get?_eq_none_iff, not_not]

theorem value_get (h : c.Tracks rs) :
    (c.get t make).1.value = (Keyed.get? t rs).getD make () := by
  have hkept := h.kept t
  rw [get_eq]
  cases hk : c.kept? t <;> cases hr : Keyed.get? t rs <;> rw [hk, hr] at hkept
  case none.none => rfl
  case some.some => exact Option.some.inj hkept
  all_goals nomatch hkept

theorem runs_get (h : c.Tracks rs) :
    (c.get t make).2.runs = c.runs + if t ∈ Keyed.keys rs then 0 else 1 := by
  have hholds := h.holds_iff (t := t)
  rw [get_eq]
  rw [holds] at hholds
  cases hk : c.kept? t <;> rw [hk] at hholds <;> simp_all

theorem size_eq (h : c.Tracks rs) : c.size = (Keyed.keys rs).dedup.length := by
  have hperm : (Keyed.keys c.slots.entries).Perm (Keyed.keys rs).dedup :=
    (List.perm_ext_iff_of_nodup h.distinct (List.nodup_dedup _)).mpr fun t => by
      rw [h.slots, List.mem_dedup]
  rw [← hperm.length_eq]
  exact (List.length_map _).symm

theorem get?_append (rs : List (Ty × (Unit → α))) (t u : Ty) (make : Unit → α) :
    Keyed.get? u (rs ++ [(t, make)]) =
      (Keyed.get? u rs).or (if t = u then some make else none) := by
  induction rs with
  | nil => rfl
  | cons r rs ih =>
    obtain ⟨t', make'⟩ := r
    simp only [List.cons_append, Keyed.get?, ih]
    split <;> rfl

-- A request that finds a filled slot leaves the cell as it is. Any other one fills the slot.
theorem get (h : c.Tracks rs) (t : Ty) (make : Unit → α) :
    (c.get t make).2.Tracks (rs ++ [(t, make)]) := by
  have hkeys (u : Ty) : u ∈ Keyed.keys (rs ++ [(t, make)]) ↔ u ∈ Keyed.keys rs ∨ u = t := by
    simp [Keyed.keys]
  rw [get_eq]
  cases hk : c.kept? t with
  | some k =>
    have ht : t ∈ Keyed.keys rs := h.holds_iff.mp <| by rw [holds, hk]; rfl
    have hrs := (not_congr Keyed.get?_eq_none_iff).mpr (not_not.mpr ht)
    refine ⟨fun u => ?_, fun u => ?_, h.distinct⟩
    · rw [h.kept, get?_append]
      by_cases hu : t = u
      · subst hu
        cases hr : Keyed.get? t rs with
        | none => exact absurd hr hrs
        | some make' => rfl
      · rw [if_neg hu, Option.or_none]
    · rw [h.slots, hkeys]
      exact ⟨.inl, fun hu => hu.elim id (· ▸ ht)⟩
  | none =>
    have hrs : Keyed.get? t rs = none := by
      have := h.kept t
      rw [hk] at this
      exact Option.map_eq_none_iff.mp this.symm
    refine ⟨fun u => ?_, fun u => ?_, Keyed.nodup_keys_put h.distinct⟩
    · rw [kept?_fill, get?_append]
      by_cases hu : u = t
      · subst hu
        rw [if_pos rfl, hrs, if_pos rfl]
        rfl
      · rw [if_neg hu, h.kept, if_neg (Ne.symm hu), Option.or_none]
    · rw [hkeys, ← h.slots, or_comm]
      exact Keyed.mem_keys_put ..

end Tracks

theorem tracks_after (us : List (Use α)) : (after us).Tracks (requests us) := by
  induction us using List.reverseRecOn with
  | nil => exact .clear empty
  | append_singleton us u ih =>
    rw [after_append]
    cases u with
    | get t make => exact requests_append_get us t make ▸ ih.get t make
    | clear => exact requests_append_clear us ▸ .clear _

-- A request after some uses of a cell.
structure KeepsFirst (us : List (Use α)) (t : Ty) (make : Unit → α) : Prop where
  -- Its procedure is run exactly if there was no request for the type.
  runs  : ((after us).get t make).2.runs =
    (after us).runs + if t ∈ Keyed.keys (requests us) then 0 else 1
  -- The answer is what the procedure of the first request for the type gives.
  value : ((after us).get t make).1.value = (Keyed.get? t (requests us)).getD make ()
  size  : (after us).size = (Keyed.keys (requests us)).dedup.length

theorem keeps_first (us : List (Use α)) (t : Ty) (make : Unit → α) : KeepsFirst us t make where
  runs  := (tracks_after us).runs_get
  value := (tracks_after us).value_get
  size  := (tracks_after us).size_eq

-- A failure is kept like a success.
example :
    ((after [.get .dynamic fun _ => .error "first"]).get .dynamic fun _ => .ok 2).1.value =
      (.error "first" : Except String Nat) :=
  rfl

end TreeCodec.Cell
