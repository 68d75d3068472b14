/-!
Lists of pairs that hold one value for each key.

`Keyed.put` replaces the value of a key that is there, in its place, and appends a new key. So keys
keep the order in which they first came.
-/
namespace TreeCodec.Keyed

variable {κ α : Type} [DecidableEq κ]

def get? (key : κ) : List (κ × α) → Option α
  | [] => none
  | (k, v) :: rest => if k = key then some v else get? key rest

def put (key : κ) (value : α) : List (κ × α) → List (κ × α)
  | [] => [(key, value)]
  | (k, v) :: rest => if k = key then (key, value) :: rest else (k, v) :: put key value rest

def keys (entries : List (κ × α)) : List κ := entries.map (·.1)

/-- Puts the entries of a list one after the other, so the last value of a key stays. -/
def ofList (entries : List (κ × α)) : List (κ × α) :=
  entries.foldl (fun out (k, v) => put k v out) []

@[simp] theorem get?_nil (key : κ) : get? key ([] : List (κ × α)) = none := rfl

theorem get?_put (key k : κ) (v : α) (entries : List (κ × α)) :
    get? key (put k v entries) = if key = k then some v else get? key entries := by
  induction entries with
  | nil =>
    by_cases h : k = key
    · simp [put, get?, h]
    · simp [put, get?, h, Ne.symm h]
  | cons e rest ih =>
    obtain ⟨k', v'⟩ := e
    by_cases hk : k' = k <;> by_cases h : k = key <;> grind [put, get?]

theorem put_put (key : κ) (v w : α) (entries : List (κ × α)) :
    put key w (put key v entries) = put key w entries := by
  induction entries with
  | nil => simp [put]
  | cons e rest ih =>
    obtain ⟨k', v'⟩ := e
    by_cases h : k' = key <;> simp [put, h, ih]

theorem mem_keys_put (key k : κ) (v : α) (entries : List (κ × α)) :
    key ∈ keys (put k v entries) ↔ key = k ∨ key ∈ keys entries := by
  induction entries with
  | nil => simp [put, keys]
  | cons e rest ih =>
    obtain ⟨k', v'⟩ := e
    by_cases hk : k' = k
    · simp [put, keys, hk]
    · simp only [keys, List.map_cons, List.mem_cons] at ih ⊢
      simp only [put, hk, if_false, List.map_cons, List.mem_cons, ih]
      grind

theorem nodup_keys_put {k : κ} {v : α} {entries : List (κ × α)} (h : (keys entries).Nodup) :
    (keys (put k v entries)).Nodup := by
  induction entries with
  | nil => simp [put, keys]
  | cons e rest ih =>
    obtain ⟨k', v'⟩ := e
    simp only [keys, List.map_cons, List.nodup_cons] at h
    by_cases hk : k' = k
    · subst hk
      simpa [put, keys] using h
    · simp only [put, hk, if_false, keys, List.map_cons, List.nodup_cons]
      exact ⟨fun hm => ((mem_keys_put k' k v rest).1 hm).elim hk h.1, ih h.2⟩

theorem get?_eq_none_iff {key : κ} {entries : List (κ × α)} :
    get? key entries = none ↔ key ∉ keys entries := by
  induction entries with
  | nil => simp [keys]
  | cons e rest ih =>
    obtain ⟨k', v'⟩ := e
    by_cases hk : k' = key <;> grind [get?, keys]

theorem mem_of_get? {key : κ} {v : α} {entries : List (κ × α)} (h : get? key entries = some v) :
    (key, v) ∈ entries := by
  induction entries with
  | nil => nomatch h
  | cons e rest ih =>
    unfold get? at h
    split at h
    case isTrue hk =>
      cases h
      exact hk ▸ List.mem_cons_self ..
    case isFalse => exact List.mem_cons_of_mem _ (ih h)

end TreeCodec.Keyed
