import TreeCodec.Proofs.Monotone
import TreeCodec.Proofs.Shape

/-!
How the procedure of a target converts, given how the procedures of other targets do.
-/
namespace TreeCodec

theorem requiredLength_le : ∀ fields : List Field, requiredLength fields ≤ fields.length
  | [] => Nat.le_refl 0
  | _ :: fs => by
    have := requiredLength_le fs
    simp only [requiredLength, List.length_cons]
    split <;> omega

namespace Target

variable (S : Schema) (hooks : Hooks) (options : Options)

/-! ## Loading -/

section Load

variable (call : GuardKey → Load.Rule)

-- A type is loaded in place, unless it has a procedure of its own.
def loadInline : Ty → Load.Rule
  | .scalar k => Direct.loadHooked hooks (.scalar k) (Load.scalar k)
  | .dynamic => Direct.loadHooked hooks .dynamic (Load.tree .dynamic)
  | .optional t => Direct.loadHooked hooks (.optional t) (Load.optional S t (loadInline t))
  | .boxed t => Direct.loadHooked hooks (.boxed t) (Load.boxed S t (loadInline t))
  | .list k t => Direct.loadHooked hooks (.list k t) (Load.list S (.list k t) t (loadInline t))
  | .map k t u =>
    Direct.loadHooked hooks (.map k t u)
      (Load.map S (.map k t u) k t u (loadInline t) (loadInline u))
  | .tuple ts => Direct.loadHooked hooks (.tuple ts) (call (.origin (.tuple ts)))
  | .declared id =>
    Direct.loadHooked hooks (.declared id) <|
      if S.kind (.declared id) = .dynamic then Load.tree (.declared id)
      else call (.origin (.declared id))

def loadField (f : Field) : Load.Rule :=
  match f.param with
  | some _ => call (.arguments [f.ty])
  | none => loadInline S hooks call f.ty

def loadOrigin (t : Ty) : Load.Rule :=
  match S.shape t with
  | .record fields positional =>
    let fields := fields.map fun f => (f, loadField S hooks call f)
    if positional then Direct.loadSequence S t fields else Direct.loadMapping S options t fields
  | .tuple ts => Direct.loadTuple S t (ts.map (loadInline S hooks call))
  | .union variants =>
    Load.union S t variants (variants.map fun v => loadInline S hooks call v.ty)
  | _ => loadInline S hooks call t

-- What the procedure of a target does.
def load : GuardKey → Load.Rule
  | .origin t => Direct.loadHooked hooks t (loadOrigin S hooks options call t)
  | .arguments ts => loadInline S hooks call (ts.headD (.tuple []))

end Load

section LoadShape

variable {S hooks options} {call : GuardKey → Load.Rule} {t : Ty}

theorem loadInline_scalar {k : ScalarTy} (h : S.shape t = .scalar k) :
    loadInline S hooks call t = Direct.loadHooked hooks t (Load.scalar k) := by
  rw [Schema.eq_scalar_of_shape h, loadInline]

theorem loadInline_dynamic (h : S.shape t = .dynamic) :
    loadInline S hooks call t = Direct.loadHooked hooks t (Load.tree t) := by
  rcases Schema.dynamic_or_declared h with rfl | ⟨id, rfl⟩
  · rw [loadInline]
  · rw [loadInline, if_pos (by simp [Schema.kind, h, Shape.kind])]

theorem loadInline_call (h : S.HasProcedure t) :
    loadInline S hooks call t = Direct.loadHooked hooks t (call (.origin t)) := by
  rcases h.tuple_or_declared with ⟨ts, rfl⟩ | ⟨id, rfl, hd⟩
  · rw [loadInline]
  · rw [loadInline, if_neg hd]

theorem loadInline_hooked {f : LoadHook} (h : hooks.load? t = some f) :
    loadInline S hooks call t = Load.hook f := by
  cases t <;> simp [loadInline, Direct.loadHooked, h]

-- A type without a procedure of its own is loaded in place also where it is the target.
theorem load_origin_of_not (h : ¬ (hooks.load? t = none ∧ S.HasProcedure t)) :
    load S hooks options call (.origin t) = loadInline S hooks call t := by
  cases hh : hooks.load? t with
  | some f => rw [loadInline_hooked hh, load, Direct.loadHooked, hh]
  | none =>
    have hn : ¬ S.HasProcedure t := fun hp => h ⟨hh, hp⟩
    simp only [load, Direct.loadHooked, hh]
    unfold Schema.HasProcedure at hn
    unfold loadOrigin
    cases hs : S.shape t <;> simp_all

end LoadShape

section LoadMono

variable {S hooks options} {call call' : GuardKey → Load.Rule} (h : ∀ key, (call key).Below (call' key))
include h

theorem loadInline_mono : ∀ t,
    (loadInline S hooks call t).Below (loadInline S hooks call' t)
  | .scalar _ | .dynamic => .refl _
  | .optional t => Direct.loadHooked_mono <| Load.optional_mono (loadInline_mono t)
  | .boxed t => Direct.loadHooked_mono <| Load.boxed_mono (loadInline_mono t)
  | .list _ t => Direct.loadHooked_mono <| Load.list_mono (loadInline_mono t)
  | .map _ t u => Direct.loadHooked_mono <| Load.map_mono (loadInline_mono t) (loadInline_mono u)
  | .tuple _ => Direct.loadHooked_mono (h _)
  | .declared id => by
    apply Direct.loadHooked_mono
    split
    · exact .refl _
    · exact h _

theorem loadField_mono (f : Field) :
    (loadField S hooks call f).Below (loadField S hooks call' f) := by
  unfold loadField
  split
  · exact h _
  · exact loadInline_mono h _

theorem loadOrigin_mono (t : Ty) :
    (loadOrigin S hooks options call t).Below (loadOrigin S hooks options call' t) := by
  have hf : ∀ fields : List Field, Direct.FieldsBelow
      (fields.map fun f => (f, loadField S hooks call f))
      (fields.map fun f => (f, loadField S hooks call' f)) :=
    fun fields => Direct.fieldsBelow_map fun f _ => loadField_mono h f
  unfold loadOrigin
  cases S.shape t with
  | record fields positional =>
    cases positional
    · exact Direct.loadMapping_mono (hf fields)
    · exact Direct.loadSequence_mono (hf fields)
  | tuple ts =>
    exact Direct.loadTuple_mono <| forall₂_maps fun _ _ => loadInline_mono h _
  | union variants =>
    exact Load.union_mono <| forall₂_maps fun _ _ => loadInline_mono h _
  | _ => exact loadInline_mono h t

theorem load_mono (key : GuardKey) :
    (load S hooks options call key).Below (load S hooks options call' key) := by
  cases key with
  | origin t => exact Direct.loadHooked_mono (loadOrigin_mono h t)
  | arguments ts => exact loadInline_mono h _

end LoadMono

/-! ## Dumping -/

section Dump

variable (call : GuardKey → Dump.Rule)

def dumpInline : Ty → Dump.Rule
  | .scalar k => Direct.dumpHooked hooks (.scalar k) (Dump.scalar k)
  | .dynamic => Direct.dumpHooked hooks .dynamic (Dump.tree S .dynamic)
  | .optional t =>
    Direct.dumpHooked hooks (.optional t) (Dump.optional S (.optional t) (dumpInline t))
  | .boxed t => Direct.dumpHooked hooks (.boxed t) (Dump.boxed S (.boxed t) (dumpInline t))
  | .list k t => Direct.dumpHooked hooks (.list k t) (Dump.list S (.list k t) (dumpInline t))
  | .map k t u =>
    Direct.dumpHooked hooks (.map k t u)
      (Dump.map S (.map k t u) k (dumpInline t) (dumpInline u))
  | .tuple ts => Direct.dumpHooked hooks (.tuple ts) (call (.origin (.tuple ts)))
  | .declared id =>
    Direct.dumpHooked hooks (.declared id) <|
      if S.kind (.declared id) = .dynamic then Dump.tree S (.declared id)
      else call (.origin (.declared id))

def dumpField (f : Field) : Dump.Rule :=
  match f.param with
  | some _ => call (.arguments [f.ty])
  | none => dumpInline S hooks call f.ty

def dumpOrigin (t : Ty) : Dump.Rule :=
  match S.shape t with
  | .record fields positional =>
    let fields := fields.map fun f => (f, dumpField S hooks call f)
    if positional then Direct.dumpSequence S t fields
    else fun v => Direct.dumpMapping S options t v 0 [] fields
  | .tuple ts => Direct.dumpTuple S t (ts.map (dumpInline S hooks call))
  | .union variants => Dump.union S t (variants.map fun v => dumpInline S hooks call v.ty)
  | _ => dumpInline S hooks call t

def dump : GuardKey → Dump.Rule
  | .origin t => Direct.dumpHooked hooks t (dumpOrigin S hooks options call t)
  | .arguments ts => dumpInline S hooks call (ts.headD (.tuple []))

end Dump

section DumpShape

variable {S hooks options} {call : GuardKey → Dump.Rule} {t : Ty}

theorem dumpInline_scalar {k : ScalarTy} (h : S.shape t = .scalar k) :
    dumpInline S hooks call t = Direct.dumpHooked hooks t (Dump.scalar k) := by
  rw [Schema.eq_scalar_of_shape h, dumpInline]

theorem dumpInline_dynamic (h : S.shape t = .dynamic) :
    dumpInline S hooks call t = Direct.dumpHooked hooks t (Dump.tree S t) := by
  rcases Schema.dynamic_or_declared h with rfl | ⟨id, rfl⟩
  · rw [dumpInline]
  · rw [dumpInline, if_pos (by simp [Schema.kind, h, Shape.kind])]

theorem dumpInline_call (h : S.HasProcedure t) :
    dumpInline S hooks call t = Direct.dumpHooked hooks t (call (.origin t)) := by
  rcases h.tuple_or_declared with ⟨ts, rfl⟩ | ⟨id, rfl, hd⟩
  · rw [dumpInline]
  · rw [dumpInline, if_neg hd]

theorem dumpInline_hooked {f : DumpHook} (h : hooks.dump? t = some f) :
    dumpInline S hooks call t = Dump.hook f := by
  cases t <;> simp [dumpInline, Direct.dumpHooked, h]

theorem dump_origin_of_not (h : ¬ (hooks.dump? t = none ∧ S.HasProcedure t)) :
    dump S hooks options call (.origin t) = dumpInline S hooks call t := by
  cases hh : hooks.dump? t with
  | some f => rw [dumpInline_hooked hh, dump, Direct.dumpHooked, hh]
  | none =>
    have hn : ¬ S.HasProcedure t := fun hp => h ⟨hh, hp⟩
    simp only [dump, Direct.dumpHooked, hh]
    unfold Schema.HasProcedure at hn
    unfold dumpOrigin
    cases hs : S.shape t <;> simp_all

end DumpShape

section DumpMono

variable {S hooks options} {call call' : GuardKey → Dump.Rule} (h : ∀ key, (call key).Below (call' key))
include h

theorem dumpInline_mono : ∀ t,
    (dumpInline S hooks call t).Below (dumpInline S hooks call' t)
  | .scalar _ | .dynamic => .refl _
  | .optional t => Direct.dumpHooked_mono <| Dump.optional_mono (dumpInline_mono t)
  | .boxed t => Direct.dumpHooked_mono <| Dump.boxed_mono (dumpInline_mono t)
  | .list _ t => Direct.dumpHooked_mono <| Dump.list_mono (dumpInline_mono t)
  | .map _ t u => Direct.dumpHooked_mono <| Dump.map_mono (dumpInline_mono t) (dumpInline_mono u)
  | .tuple _ => Direct.dumpHooked_mono (h _)
  | .declared id => by
    apply Direct.dumpHooked_mono
    split
    · exact .refl _
    · exact h _

theorem dumpField_mono (f : Field) :
    (dumpField S hooks call f).Below (dumpField S hooks call' f) := by
  unfold dumpField
  split
  · exact h _
  · exact dumpInline_mono h _

theorem dumpOrigin_mono (t : Ty) :
    (dumpOrigin S hooks options call t).Below (dumpOrigin S hooks options call' t) := by
  have hf : ∀ fields : List Field, Direct.DumpsBelow
      (fields.map fun f => (f, dumpField S hooks call f))
      (fields.map fun f => (f, dumpField S hooks call' f)) :=
    fun fields => Direct.dumpsBelow_map fun f _ => dumpField_mono h f
  unfold dumpOrigin
  cases S.shape t with
  | record fields positional =>
    cases positional
    · exact fun v => Direct.dumpMapping_mono (hf fields) 0 []
    · exact Direct.dumpSequence_mono (hf fields)
  | tuple ts =>
    exact Direct.dumpTuple_mono <| forall₂_maps fun _ _ => dumpInline_mono h _
  | union variants =>
    exact Dump.union_mono <| forall₂_maps fun _ _ => dumpInline_mono h _
  | _ => exact dumpInline_mono h t

theorem dump_mono (key : GuardKey) :
    (dump S hooks options call key).Below (dump S hooks options call' key) := by
  cases key with
  | origin t => exact Direct.dumpHooked_mono (dumpOrigin_mono h t)
  | arguments ts => exact dumpInline_mono h _

end DumpMono

end Target
end TreeCodec
