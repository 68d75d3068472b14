import Mathlib.Logic.Relation
import TreeCodec.Proofs.Compilation
import TreeCodec.Proofs.DirectDepth
import TreeCodec.Proofs.RecordTrip
import TreeCodec.Proofs.ScalarTrip

/-!
Values that are dumped and loaded again directly.
-/
namespace TreeCodec

namespace Schema

variable (S : Schema)

-- The types in the graph of a root.
def Contains (root t : Ty) : Prop :=
  Relation.ReflTransGen (fun t u => u ∈ S.within t) root t

-- Whether values of a type can be told from what they are dumped as, if those of the types within
-- it can.
def reversible (t : Ty) : Bool :=
  match S.shape t with
  | .union _ | .foreign | .scalar (.float .f32) => false
  | .optional u => !S.nullable u
  | .map _ (.scalar s) _ => s.isKey
  | .map .. => false
  | .record fields false => (fields.map Field.key).Nodup
  | _ => true

variable {S}

theorem key_of_reversible {kind : MapKind} {t u : Ty} (h : S.reversible (.map kind t u)) :
    ∃ s, t = .scalar s ∧ s.isKey := by
  cases t <;> simp [reversible, shape] at h
  case scalar s => exact ⟨s, rfl, h⟩

end Schema

namespace Direct

variable {S : Schema} {options : Options} {d : Nat}

-- Whether dumping a value of a type is undone by loading that nests as many declared types.
def Undone (S : Schema) (options : Options) (d : Nat) (t : Ty) (v : Value) : Prop :=
  ∃ p : Trip, p.value = v ∧ p.Closes S (dump S {} {} d t) (load S {} options d t)

theorem undone_scalar {s : ScalarTy} {v : Value} (h : S.HasType (.scalar s) v)
    (hr : S.reversible (.scalar s)) (hf : ∀ x ∈ v.doubles, x.isFinite) :
    Undone S options d (.scalar s) v := by
  have hs : s ≠ .float .f32 := by
    rintro rfl
    nomatch hr
  have ⟨tree, hdump, hload, hnull⟩ := Schema.scalar_undone h hs hf
  exact ⟨⟨v, tree, v⟩, rfl, hdump, hload, .refl v, fun h => absurd h hnull⟩

theorem undone_tree {t : Ty} (hs : S.shape t = .dynamic) (x : Tree)
    (hd : (Value.tree t x).size ≤ d) : Undone S options d t (.tree t x) := by
  refine ⟨⟨.tree t x, x, .tree t x⟩, rfl, ?_⟩
  have hc := Trip.closes_tree hs x
  rcases Schema.dynamic_or_declared hs with rfl | ⟨id, rfl⟩
  case inl => exact hc
  case inr =>
    obtain ⟨d, rfl⟩ : ∃ d', d = d' + 1 := ⟨d - 1, by simp only [Value.size] at hd; omega⟩
    have hdump : dump S {} {} (d + 1) (.declared id) = Dump.tree S (.declared id) := by
      show dumpDeclared S {} {} (dumpWithin S {} {} d) id = _
      simp only [dumpDeclared, hs]
    have hload : load S {} options (d + 1) (.declared id) = Load.tree (.declared id) := by
      show loadDeclared S {} options (loadWithin S {} options d) id = _
      simp only [loadDeclared, hs]
    rwa [hdump, hload]

theorem undone_list {k : ListKind} {t : Ty} {vs : List Value} (h : ∀ v ∈ vs, S.HasType t v)
    (hvs : ∀ v ∈ vs, Undone S options d t v) : Undone S options d (.list k t) (.list k t vs) := by
  have ⟨trips, he, hc⟩ := exists_map hvs
  subst he
  refine ⟨_, rfl, Trip.closes_list fun p hp => ⟨hc p hp, ?_⟩⟩
  exact (h p.value (List.mem_map_of_mem hp)).ty_eq

theorem undone_map {kind : MapKind} {s : ScalarTy} {u : Ty} {es : List (Value × Value)}
    (hs : s.isKey) (hk : ∀ e ∈ es, S.HasType (.scalar s) e.1) (hv : ∀ e ∈ es, S.HasType u e.2)
    (ha : S.KeysApart kind (es.map Prod.fst)) (hes : ∀ e ∈ es, Undone S options d u e.2) :
    Undone S options d (.map kind (.scalar s) u) (.map kind (.scalar s) u es) := by
  have hrows : ∀ e ∈ es, ∃ r : EntryTrip, (r.key, r.trip.value) = e ∧
      r.Closes S (dump S {} {} d (.scalar s)) (load S {} options d (.scalar s))
        (dump S {} {} d u) (load S {} options d u) := by
    intro e he
    have ⟨p, hp, hc⟩ := hes e he
    have ⟨key, name, hkey, hname, hload⟩ := Schema.key_undone (hk e he) hs
    exact ⟨⟨e.1, name, p⟩, by rw [hp], ⟨key, hkey, hname⟩, hload, hc⟩
  have ⟨rows, he, hc⟩ := exists_map hrows
  subst he
  rw [List.map_map] at ha
  refine ⟨_, rfl, EntryTrip.closes_map hc ?_ ?_ ha⟩
  · exact fun r hr => hk _ (List.mem_map_of_mem (f := fun r => (r.key, r.trip.value)) hr)
  · exact fun r hr => (hv _ (List.mem_map_of_mem (f := fun r => (r.key, r.trip.value)) hr)).ty_eq

-- The trip of the value of a part that has a type.
theorem Undone.exists_trip {t : Ty} {v : Value} (hu : Undone S options d t v) (h : S.HasType t v) :
    ∃ p : Trip, p.value = v ∧
      p.Closes S (dump S {} {} d t) (load S {} options d t) ∧ p.value.ty = t := by
  obtain ⟨p, rfl, hc⟩ := hu
  exact ⟨p, rfl, hc, h.ty_eq⟩

theorem undone_tuple {ts : List Ty} {vs : List Value} (h : List.Forall₂ S.HasType ts vs)
    (hu : ∀ t v, (t, v) ∈ ts.zip vs → Undone S options d t v) :
    Undone S options d (.tuple ts) (.tuple vs) := by
  have ⟨rows, ht, hv, hc⟩ := exists_rows h fun t v hm hty => (hu t v hm).exists_trip hty
  subst hv
  have hdump : dump S {} {} d (.tuple ts) = dumpTuple S (.tuple ts) (ts.map (dump S {} {} d)) :=
    congrArg (dumpTuple S (.tuple ts)) (dumpTypes_eq_map ts)
  have hload : load S {} options d (.tuple ts) =
      loadTuple S (.tuple ts) (ts.map (load S {} options d)) :=
    congrArg (loadTuple S (.tuple ts)) (loadTypes_eq_map ts)
  unfold Undone
  rw [hdump, hload]
  exact ⟨_, rfl, closes_tuple (fun r hr => (hc r hr).left) (fun r hr => (hc r hr).right) ht⟩

-- A record nests one declared type more than its fields do.
theorem undone_record {id : String} {fields : List Field} {positional : Bool} {vs : List Value}
    (hs : S.shape (.declared id) = .record fields positional) (hr : S.reversible (.declared id))
    (h : List.Forall₂ S.HasType (fields.map Field.ty) vs)
    (hu : ∀ f v, (f, v) ∈ fields.zip vs → Undone S options d f.ty v) :
    Undone S options (d + 1) (.declared id) (.record id vs) := by
  rw [List.forall₂_map_left_iff] at h
  have ⟨rows, hf, hv, hc⟩ := exists_rows h fun f v hm hty => (hu f v hm).exists_trip hty
  subst hv
  have hrows : FieldTrips S (dump S {} {} d) (load S {} options d) fields rows :=
    ⟨hf, fun r hr => (hc r hr).left, fun r hr => (hc r hr).right⟩
  have hdump : dump S {} {} (d + 1) (.declared id) =
      dumpDeclared S {} {} (dumpWithin S {} {} d) id := rfl
  have hload : load S {} options (d + 1) (.declared id) =
      loadDeclared S {} options (loadWithin S {} options d) id := rfl
  unfold Undone
  rw [hdump, hload]
  cases positional with
  | true =>
    simp only [dumpDeclared, loadDeclared, hs, if_true]
    exact ⟨_, rfl, hrows.closes_sequence hs⟩
  | false =>
    have hn : (fields.map Field.key).Nodup := by simpa [Schema.reversible, hs] using hr
    simp only [dumpDeclared, loadDeclared, hs, Bool.false_eq_true, if_false]
    exact ⟨_, rfl, hrows.closes_mapping rfl hs hn⟩

-- Dumping is undone by loading if both may nest as many declared types as the value may.
theorem undone (options : Options) {t : Ty} {v : Value} (h : S.HasType t v)
    (hr : ∀ u, S.Contains t u → S.reversible u) (hf : ∀ x ∈ v.doubles, x.isFinite)
    (hd : v.size ≤ d) : Undone S options d t v := by
  induction hn : v.size using Nat.strongRecOn generalizing t v d with
  | ind n ih =>
    subst hn
    have hself := hr t .refl
    -- A part is of a type within, holds no other doubles, and is smaller.
    have hpart : ∀ {u : Ty} {w : Value} {d' : Nat}, u ∈ S.within t → S.HasType u w →
        w.doubles ⊆ v.doubles → w.size < v.size → w.size ≤ d' → Undone S options d' u w :=
      fun hu hw hsub hlt hle =>
        ih _ hlt hw (fun u' hu' => hr u' (.head hu hu')) (fun x hx => hf x (hsub hx)) hle rfl
    have hscalar : ∀ s, t = .scalar s → Undone S options d t v := by
      rintro s rfl
      exact undone_scalar h hself hf
    cases h with
    | bool | char | int | single | double | text => exact hscalar _ rfl
    | tree x hs => exact undone_tree hs x hd
    | none u => exact ⟨_, rfl, Trip.closes_none⟩
    | @some u v h =>
      simp only [Value.size] at hd hpart
      obtain ⟨p, rfl, hc⟩ := hpart (List.mem_singleton_self u) h (List.Subset.refl _)
        (Nat.lt_succ_self _) (Nat.le_of_succ_le hd)
      have hn : ¬S.nullable u := by simpa [Schema.reversible, Schema.shape] using hself
      exact ⟨_, rfl, hc.some h.ty_eq hn⟩
    | @boxed u v h =>
      simp only [Value.size] at hd hpart
      obtain ⟨p, rfl, hc⟩ := hpart (List.mem_singleton_self u) h (List.Subset.refl _)
        (Nat.lt_succ_self _) (Nat.le_of_succ_le hd)
      exact ⟨_, rfl, hc.boxed h.ty_eq⟩
    | @list k u vs h =>
      simp only [Value.size] at hd hpart
      refine undone_list h fun v hv => ?_
      have hle := Value.size_le_sizeList hv
      exact hpart (List.mem_singleton_self u) (h v hv) (Value.doubles_subset_doublesList hv)
        (by omega) (by omega)
    | @map kind t u es hk hv ha =>
      simp only [Value.size] at hd hpart
      obtain ⟨s, rfl, hs⟩ := Schema.key_of_reversible hself
      refine undone_map hs hk hv ha fun e he => ?_
      have hle := Value.size_le_sizeEntries (k := e.1) (v := e.2) he
      exact hpart (by simp [Schema.within, Schema.shape]) (hv e he)
        (Value.doubles_subset_doublesEntries he) (by omega) (by omega)
    | @tuple ts vs h =>
      simp only [Value.size] at hd hpart
      refine undone_tuple h fun t v hm => ?_
      obtain ⟨ht, hv⟩ := List.of_mem_zip hm
      have hle := Value.size_le_sizeList hv
      exact hpart ht ((List.forall₂_iff_zip.mp h).right hm) (Value.doubles_subset_doublesList hv)
        (by omega) (by omega)
    | @record id fields positional vs hs h =>
      simp only [Value.size] at hd hpart
      obtain ⟨d, rfl⟩ : ∃ d', d = d' + 1 := ⟨d - 1, by omega⟩
      refine undone_record hs hself h fun f v hm => ?_
      obtain ⟨hf, hv⟩ := List.of_mem_zip hm
      have hle := Value.size_le_sizeList hv
      have hty : S.HasType f.ty v :=
        (List.forall₂_iff_zip.mp (List.forall₂_map_left_iff.mp h)).right hm
      exact hpart (by simpa [Schema.within, hs] using ⟨f, hf, rfl⟩) hty
        (Value.doubles_subset_doublesList hv) (by omega) (by omega)
    | @union id variants i variant v hs =>
      simp [Schema.reversible, hs] at hself

end Direct
end TreeCodec
