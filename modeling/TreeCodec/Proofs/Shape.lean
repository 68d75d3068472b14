import TreeCodec.Proofs.Form

/-!
The structure of types, by their kinds.
-/
namespace TreeCodec

namespace Settings

variable {s : Settings} {t : Ty}

theorem load?_eq_none_iff (hd : s.direction = .load) :
    s.hooks.load? t = none ↔ s.hook? t = none := by
  simp [hook?, hd]

theorem load?_of_hook? (hd : s.direction = .load) {b : Binding} (h : s.hook? t = some b) :
    ∃ f, s.hooks.load? t = some f ∧ b = .loadHook f := by
  simp only [hook?, hd, Option.map_eq_some_iff] at h
  have ⟨f, hf, he⟩ := h
  exact ⟨f, hf, he.symm⟩

theorem dump?_eq_none_iff (hd : s.direction = .dump) :
    s.hooks.dump? t = none ↔ s.hook? t = none := by
  simp [hook?, hd]

theorem dump?_of_hook? (hd : s.direction = .dump) {b : Binding} (h : s.hook? t = some b) :
    ∃ f, s.hooks.dump? t = some f ∧ b = .dumpHook f := by
  simp only [hook?, hd, Option.map_eq_some_iff] at h
  have ⟨f, hf, he⟩ := h
  exact ⟨f, hf, he.symm⟩

end Settings

namespace Schema

variable {S : Schema} {t : Ty}

theorem shape_declared (S : Schema) (id : String) :
    (∃ fields positional, S.shape (.declared id) = .record fields positional) ∨
      (∃ variants, S.shape (.declared id) = .union variants) ∨
      S.shape (.declared id) = .dynamic ∨ S.shape (.declared id) = .foreign := by
  simp only [shape]
  cases S.declaration? id with
  | none => simp
  | some d =>
    obtain ⟨_, definition, _⟩ := d
    cases definition <;> simp [Definition.shape]

theorem hasProcedure_of_kind (h : S.kind t = .record ∨ S.kind t = .union ∨ S.kind t = .tuple) :
    S.HasProcedure t := by
  unfold HasProcedure
  cases hs : S.shape t <;> simp_all [kind, Shape.kind]

theorem shape_of_kind_dynamic (h : S.kind t = .dynamic) : S.shape t = .dynamic := by
  cases hs : S.shape t <;> simp_all [kind, Shape.kind]

-- A declared type is a record, a union, dynamic or foreign.
theorem shape_declared_eq_foreign {id : String} (hr : S.kind (.declared id) ≠ .record)
    (hu : S.kind (.declared id) ≠ .union) (hd : S.kind (.declared id) ≠ .dynamic) :
    S.shape (.declared id) = .foreign := by
  rcases S.shape_declared id with ⟨_, _, h⟩ | ⟨_, h⟩ | h | h <;> simp_all [kind, Shape.kind]

theorem eq_scalar_of_shape {k : ScalarTy} (h : S.shape t = .scalar k) : t = .scalar k := by
  cases t with
  | scalar => simpa [shape] using h
  | declared id => rcases S.shape_declared id with ⟨_, _, h'⟩ | ⟨_, h'⟩ | h' | h' <;> simp_all
  | _ => simp [shape] at h

theorem eq_tuple_of_shape {ts : List Ty} (h : S.shape t = .tuple ts) : t = .tuple ts := by
  cases t with
  | tuple => simpa [shape] using h
  | declared id => rcases S.shape_declared id with ⟨_, _, h'⟩ | ⟨_, h'⟩ | h' | h' <;> simp_all
  | _ => simp [shape] at h

-- Dynamic types are the one that is built in, and declared ones.
theorem dynamic_or_declared (h : S.shape t = .dynamic) : t = .dynamic ∨ ∃ id, t = .declared id := by
  cases t <;> simp_all [shape]

-- Types with procedures are the tuples, and declared ones.
theorem HasProcedure.tuple_or_declared (h : S.HasProcedure t) :
    (∃ ts, t = .tuple ts) ∨ ∃ id, t = .declared id ∧ S.kind t ≠ .dynamic := by
  cases t <;> simp_all [HasProcedure, shape]
  case declared id =>
    rcases S.shape_declared id with ⟨_, _, h'⟩ | ⟨_, h'⟩ | h' | h' <;>
      simp_all [shape, kind, Shape.kind]

theorem shape_of_fields {fs : List Field} {positional : Bool}
    (h : S.fields t = .ok (fs, positional)) : S.shape t = .record fs positional := by
  unfold fields at h
  split at h <;> cases h
  assumption

theorem shape_of_variants {vs : List Variant} (h : S.variants t = .ok vs) :
    S.shape t = .union vs := by
  unfold variants at h
  split at h <;> cases h
  assumption

theorem shape_of_elements {ts : List Ty} (h : S.elements t = .ok ts) : S.shape t = .tuple ts := by
  unfold elements at h
  split at h <;> cases h
  assumption

theorem shape_of_item {u : Ty} (h : S.item t = .ok u) : S.shape t = .list u := by
  unfold item at h
  split at h <;> cases h
  assumption

theorem shape_of_entry {kind : MapKind} {u v : Ty} (h : S.entry t = .ok (kind, u, v)) :
    S.shape t = .map kind u v := by
  unfold entry at h
  split at h <;> cases h
  assumption

theorem shape_of_option {u : Ty} (h : S.option t = .ok u) : S.shape t = .optional u := by
  unfold option at h
  split at h <;> cases h
  assumption

theorem shape_of_box {u : Ty} (h : S.box t = .ok u) : S.shape t = .boxed u := by
  unfold box at h
  split at h <;> cases h
  assumption

end Schema
end TreeCodec
