import TreeCodec.Compile.Converter
import TreeCodec.Proofs.Lists
import TreeCodec.Proofs.Wrapped

/-!
What a compilation gives: the procedures of the targets of a type, under names of their own, or the
foreign type that it cannot convert.
-/
namespace TreeCodec

namespace Ty

mutual

theorem parts_subset : ∀ (t : Ty) {u : Ty}, u ∈ t.parts → u.parts ⊆ t.parts
  | .scalar _, _, h => by rw [List.mem_singleton.mp h]; exact List.Subset.refl _
  | .dynamic, _, h => by rw [List.mem_singleton.mp h]; exact List.Subset.refl _
  | .declared _, _, h => by rw [List.mem_singleton.mp h]; exact List.Subset.refl _
  | .optional a, u, h => by
    rcases List.mem_cons.mp h with rfl | h
    · exact List.Subset.refl _
    · exact List.Subset.trans (parts_subset a h) (List.subset_cons_self ..)
  | .boxed a, u, h => by
    rcases List.mem_cons.mp h with rfl | h
    · exact List.Subset.refl _
    · exact List.Subset.trans (parts_subset a h) (List.subset_cons_self ..)
  | .list _ a, u, h => by
    rcases List.mem_cons.mp h with rfl | h
    · exact List.Subset.refl _
    · exact List.Subset.trans (parts_subset a h) (List.subset_cons_self ..)
  | .map _ a b, u, h => by
    rcases List.mem_cons.mp h with rfl | h
    · exact List.Subset.refl _
    · refine List.Subset.trans ?_ (List.subset_cons_self ..)
      rcases List.mem_append.mp h with h | h
      · exact List.Subset.trans (parts_subset a h) (List.subset_append_left ..)
      · exact List.Subset.trans (parts_subset b h) (List.subset_append_right ..)
  | .tuple as, u, h => by
    rcases List.mem_cons.mp h with rfl | h
    · exact List.Subset.refl _
    · exact List.Subset.trans (partsList_subset as h) (List.subset_cons_self ..)

theorem partsList_subset : ∀ (as : List Ty) {u : Ty}, u ∈ partsList as → u.parts ⊆ partsList as
  | [], _, h => nomatch h
  | a :: as, u, h => by
    rcases List.mem_append.mp h with h | h
    · exact List.Subset.trans (parts_subset a h) (List.subset_append_left ..)
    · exact List.Subset.trans (partsList_subset as h) (List.subset_append_right ..)

end

theorem mem_partsList {as : List Ty} {a : Ty} (h : a ∈ as) : a ∈ partsList as := by
  induction as with
  | nil => nomatch h
  | cons b bs ih =>
    rcases List.mem_cons.mp h with rfl | h
    · exact List.mem_append_left _ a.self_mem_parts
    · exact List.mem_append_right _ (ih h)

end Ty

namespace Schema

variable {S : Schema}

theorem declaredParts_subset {t u : Ty} (ht : t ∈ S.declaredParts) (hu : u ∈ t.parts) :
    u ∈ S.declaredParts := by
  unfold declaredParts at *
  obtain ⟨⟨id, d⟩, hd, ht⟩ := List.mem_flatMap.mp ht
  refine List.mem_flatMap.mpr ⟨(id, d), hd, ?_⟩
  simp only [List.cons_append, List.mem_cons, List.mem_append, List.mem_flatMap] at ht ⊢
  rcases ht with rfl | ⟨g, hg, ht⟩ | ht
  · exact .inl <| by simpa [Ty.parts] using hu
  · exact .inr <| .inl ⟨g, hg, Ty.parts_subset _ ht hu⟩
  · refine .inr <| .inr ?_
    cases hdef : d.definition <;> simp only [hdef, List.mem_flatMap] at ht ⊢
    case record =>
      obtain ⟨f, hf, ht⟩ := ht
      exact ⟨f, hf, Ty.parts_subset _ ht hu⟩
    case union =>
      obtain ⟨v, hv, ht⟩ := ht
      exact ⟨v, hv, Ty.parts_subset _ ht hu⟩
    all_goals simp at ht

-- The parts of the types within a declaration are those of the declarations.
theorem parts_sublist_declaredParts {id : String} {u : Ty} (h : u ∈ S.within (.declared id)) :
    u.parts.Sublist S.declaredParts := by
  simp only [within, shape] at h
  cases hd : S.declaration? id with
  | none => simp [hd] at h
  | some d =>
    refine .trans ?_ (sublist_flatMap (Keyed.mem_of_get? hd))
    refine .trans ?_ (List.sublist_append_right ..)
    cases hdef : d.definition <;> simp only [hd, hdef, Definition.shape, List.not_mem_nil] at h
    case record =>
      obtain ⟨f, hf, he⟩ := List.mem_map.mp h
      exact he ▸ sublist_flatMap (f := fun f : Field => f.ty.parts) hf
    case union =>
      obtain ⟨v, hv, he⟩ := List.mem_map.mp h
      exact he ▸ sublist_flatMap (f := fun v : Variant => v.ty.parts) hv

-- What the structure of a type shows is part of the type or of a declaration.
theorem within_cases {t u : Ty} (h : u ∈ S.within t) : u ∈ t.parts ∨ u ∈ S.declaredParts := by
  cases t with
  | declared id => exact .inr <| (parts_sublist_declaredParts h).subset u.self_mem_parts
  | tuple ts => exact .inl <| List.mem_cons_of_mem _ (Ty.mem_partsList h)
  | scalar k => nomatch h
  | dynamic => nomatch h
  | optional a | boxed a | list _ a =>
    exact .inl <| List.mem_cons_of_mem _ (List.mem_singleton.mp h ▸ a.self_mem_parts)
  | map k a b =>
    refine .inl <| List.mem_cons_of_mem _ ?_
    rcases List.mem_cons.mp h with rfl | h
    · exact List.mem_append_left _ u.self_mem_parts
    · exact List.mem_append_right _ (List.mem_singleton.mp h ▸ b.self_mem_parts)

end Schema

-- A number of nested calls that go on as long as a direct conversion that nests `d` declared types.
def callsOf (S : Schema) (d : Nat) (t : Ty) : Nat :=
  d * (S.declaredParts.length + 1) + t.parts.length

theorem Schema.length_parts_le {S : Schema} {id : String} {u : Ty}
    (hu : u ∈ S.within (.declared id)) : u.parts.length ≤ S.declaredParts.length :=
  (parts_sublist_declaredParts hu).length_le

theorem Ty.length_parts_pos (t : Ty) : 0 < t.parts.length :=
  List.length_pos_of_mem t.self_mem_parts

theorem Ty.length_parts_lt_tuple {ts : List Ty} {t : Ty} (h : t ∈ ts) :
    t.parts.length < (Ty.tuple ts).parts.length := by
  have h : t.parts.length ≤ (partsList ts).length := by
    induction ts with
    | nil => nomatch h
    | cons u ts ih =>
      simp only [partsList, List.length_append]
      rcases List.mem_cons.mp h with rfl | h
      · omega
      · have := ih h
        omega
  simp only [parts, List.length_cons]
  omega

-- The types that are met from a root. A hooked type hides the types in it.
inductive Reached (s : Settings) (root : Ty) : Ty → Prop
  | root : Reached s root root
  | within {t u : Ty} :
    Reached s root t → s.hook? t = none → u ∈ s.schema.within t → Reached s root u

theorem Reached.mem_reachable {s : Settings} {root t : Ty} (h : Reached s root t) :
    t ∈ WrapperSet.reachable s.schema [root] := by
  unfold WrapperSet.reachable
  rw [List.mem_eraseDups, List.flatMap_singleton]
  induction h with
  | root => exact List.mem_append_left _ root.self_mem_parts
  | within _ _ hu ih =>
    rcases Schema.within_cases hu with hu | hu
    · rcases List.mem_append.mp ih with ht | ht
      · exact List.mem_append_left _ (Ty.parts_subset _ ht hu)
      · exact List.mem_append_right _ (Schema.declaredParts_subset ht hu)
    · exact List.mem_append_right _ hu

-- The keys of all targets for some types.
def GuardKey.ofTypes (ts : List Ty) : List GuardKey :=
  ts.flatMap fun t => [.origin t, .arguments [t]]

theorem GuardKey.length_ofTypes (ts : List Ty) : (ofTypes ts).length = 2 * ts.length := by
  unfold ofTypes
  induction ts with
  | nil => rfl
  | cons t ts ih => simp only [List.flatMap_cons, List.length_append, ih, List.length_cons]; grind

theorem Reached.coverage (s : Settings) (root : Ty) :
    Coverage s (Reached s root) (GuardKey.ofTypes (WrapperSet.reachable s.schema [root])) where
  closed    := fun _ _ ht hh hu => .within ht hh hu
  origin    := fun _ ht => List.mem_flatMap.mpr ⟨_, ht.mem_reachable, by simp⟩
  arguments := fun _ ht => List.mem_flatMap.mpr ⟨_, ht.mem_reachable, by simp⟩

-- The procedures of a source are those of the targets that have names.
structure Compilation (s : Settings) (root : Ty) (source : Source) (name? : GuardKey → Option String) :
    Prop where
  entry    : name? (.origin root) = some source.entry
  covered  : ∀ key name, name? key = some name →
    ∃ p ∈ source.builder.sealed, p.name = name ∧ ProcedureFor s name? key p
  made     : ∀ p ∈ source.builder.sealed, ∃ key, name? key = some p.name ∧
    ProcedureFor s name? key p
  distinct : source.builder.names.Nodup
  pending  : source.builder.pending = []
  last     : source.builder.names.getLast? = some source.entry

open CompileM in
theorem entryStep_sat (s : Settings) (root : Ty) (record : String) :
    Sat (entryStep s.schema s.direction root) s (.new record)
      (fun name c => Compilation s root ⟨c.builder, name⟩ c.guard.lookup)
      (Refused s (Reached s root)) := by
  have hm := Reached.coverage s root
  generalize hk : GuardKey.ofTypes (WrapperSet.reachable s.schema [root]) = keys at hm
  have hlen := GuardKey.length_ofTypes (WrapperSet.reachable s.schema [root])
  rw [hk] at hlen
  have hready : Ready keys (keys.length + 1) (.new record) := by
    refine ⟨nofun, nofun, nofun, ?_⟩
    exact Nat.le_succ_of_le List.countP_le_length
  refine .bind <| .param ?_
  unfold WrapperSet.new
  rw [← hlen]
  refine (procedureOf_sat hready (show _ = GuardKey.origin root from rfl) rfl
    (hm.origin root .root) ?_).imp ?_
  · intro m c' name hn hb
    cases hn
    exact root_sat hm (ofDepth_sound hm _) hb rfl .root
  · intro name c ⟨hentry, hext, hlast⟩
    have ⟨new, hsealed, hgrown⟩ := hext.grown
    have hsealed : c.builder.sealed = new := hsealed
    constructor
    case entry => exact hentry
    case covered => exact fun key name hk => hsealed ▸ hgrown.covered key name rfl hk
    case made =>
      intro p hp
      have ⟨key, _, hname, hfor⟩ := hgrown.made p (hsealed ▸ hp)
      exact ⟨key, hname, hfor⟩
    case distinct =>
      show (c.builder.sealed.map Procedure.name).Nodup
      exact hsealed ▸ hgrown.distinct
    case pending => exact hext.pending
    case last => exact hlast rfl

theorem compileProcedures_compilation {S : Schema} {options : Options} {hooks : Hooks} {d : Direction}
    {root : Ty} {source : Source}
    (h : (compileProcedures S options hooks d root).result = .ok source) :
    ∃ name?, Compilation ⟨S, d, hooks, options⟩ root source name? := by
  have hs := entryStep_sat ⟨S, d, hooks, options⟩ root (Text.identifier (S.name root))
  unfold compileProcedures at h
  cases hr : entryStep S d root ⟨S, d, hooks, options⟩ (.new (Text.identifier (S.name root))) with
  | ok name c =>
    simp only [ReaderT.run, EStateM.run, hr] at h
    cases h
    exact ⟨_, hs.result hr⟩
  | error e c =>
    simp only [ReaderT.run, EStateM.run, hr] at h
    nomatch h

-- A compilation fails for a foreign type only.
theorem compileProcedures_refused {S : Schema} {options : Options} {hooks : Hooks} {d : Direction}
    {root : Ty} {e : CodegenError}
    (h : (compileProcedures S options hooks d root).result = .error e) :
    Refused ⟨S, d, hooks, options⟩ (Reached ⟨S, d, hooks, options⟩ root) e := by
  have hs := entryStep_sat ⟨S, d, hooks, options⟩ root (Text.identifier (S.name root))
  unfold compileProcedures at h
  cases hr : entryStep S d root ⟨S, d, hooks, options⟩ (.new (Text.identifier (S.name root))) with
  | ok name c =>
    simp only [ReaderT.run, EStateM.run, hr] at h
    nomatch h
  | error e c =>
    simp only [ReaderT.run, EStateM.run, hr] at h
    cases h
    exact hs.error hr

theorem Compiled.exists_ok {α : Type} {x : Compiled α} (h : x.result.toBool = true) :
    ∃ a, x.result = .ok a := by
  cases hr : x.result with
  | ok a => exact ⟨a, rfl⟩
  | error e => simp [hr, Except.toBool] at h

theorem Compiled.eq_of_map {α β : Type} {x : Compiled α} {a : α} (ha : x.result = .ok a) {f : α → β}
    {b : β} (h : (x.result.map f).toOption = some b) : f a = b := by
  simpa [ha, Except.map, Except.toOption] using h

theorem Compiled.exists_of_map {α β : Type} {x : Compiled α} {f : α → β} {b : β}
    (h : (x.result.map f).toOption = some b) : ∃ a, x.result = .ok a ∧ f a = b := by
  cases hx : x.result with
  | error e => simp [hx, Except.map, Except.toOption] at h
  | ok a => exact ⟨a, rfl, eq_of_map hx h⟩

theorem Compiled.exists_fun {ι α : Type} {x : ι → Compiled α} {i : ι} {is : List ι}
    (h : ∀ k ∈ i :: is, (x k).result.toBool = true) :
    ∃ f : ι → α, ∀ k ∈ i :: is, (x k).result = .ok (f k) := by
  have : Nonempty α := (exists_ok (h i List.mem_cons_self)).nonempty
  choose! f hf using fun k hk => exists_ok (h k hk)
  exact ⟨f, hf⟩

-- A compilation that meets no foreign type without a hook gives procedures.
theorem compileProcedures_ok {S : Schema} {options : Options} {hooks : Hooks} {d : Direction}
    {root : Ty} (h : ∀ t, Reached ⟨S, d, hooks, options⟩ root t → S.shape t ≠ .foreign) :
    ∃ source, (compileProcedures S options hooks d root).result = .ok source := by
  cases hr : (compileProcedures S options hooks d root).result with
  | ok source => exact ⟨source, rfl⟩
  | error e =>
    have ⟨t, ht, _, hf, _⟩ := compileProcedures_refused hr
    exact absurd hf (h t ht)

end TreeCodec
