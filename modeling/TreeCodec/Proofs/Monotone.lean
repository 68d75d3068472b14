import TreeCodec.Proofs.Approximation
import TreeCodec.Proofs.Lists

/-!
The rules of the kinds are monotone: with rules for its parts that go on where others are cut off, a
rule goes on too, and ends as it did otherwise.
-/
namespace TreeCodec

-- One rule is below another one on every input.
def Load.Rule.Below (r r' : Load.Rule) : Prop :=
  ∀ input, (r input).Below (r' input)

def Dump.Rule.Below (r r' : Dump.Rule) : Prop :=
  ∀ v, (r v).Below (r' v)

open Run

namespace Load

variable {S : Schema} {r r' k k' : Rule}

theorem Rule.Below.refl (r : Rule) : r.Below r :=
  fun _ => .refl _

theorem Rule.Below.trans {r₁ r₂ r₃ : Rule} (h₁ : r₁.Below r₂) (h₂ : r₂.Below r₃) : r₁.Below r₃ :=
  fun input => (h₁ input).trans (h₂ input)

theorem Rule.Below.of_eq {r r' : Rule} (h : r = r') : r.Below r' :=
  h ▸ .refl r

theorem optional_mono {t : Ty} (h : r.Below r') : (optional S t r).Below (optional S t r') := by
  intro input
  match input with
  | none | some .null => exact .refl _
  | some (.bool _) | some (.number _) | some (.text _) | some (.array _) | some (.object _) =>
    exact (h _).bind fun _ => .refl _

theorem boxed_mono {t : Ty} (h : r.Below r') : (boxed S t r).Below (boxed S t r') :=
  fun input => (h input).bind fun _ => .refl _

theorem list_mono {t item : Ty} (h : r.Below r') :
    (list S t item r).Below (list S t item r') := by
  intro input
  refine .bind_right fun t => ?_
  cases t with
  | array items => exact (Below.forEach_mem (fun _ _ _ => (h _).within _) 0).bind fun _ => .refl _
  | _ => exact .refl _

theorem map_mono {t key value : Ty} {kind : MapKind} (hk : k.Below k') (h : r.Below r') :
    (map S t kind key value k r).Below (map S t kind key value k' r') := by
  intro input
  refine .bind_right fun t => ?_
  cases t with
  | object entries =>
    refine (Below.forEach_mem (fun _ _ _ => ?_) 0).bind fun _ => .refl _
    exact ((hk _).within _).bind fun _ => ((h _).within _).bind fun _ => .refl _
  | _ => exact .refl _

-- The log of a variant that is rejected tells its error, but not the trail of it.
theorem firstOf_mono {t : Ty} {variants : List Variant} {input : Tree} {loads loads' : List Rule}
    (h : List.Forall₂ Rule.Below loads loads') (i : Nat) :
    (firstOf S t variants input i loads).Below (firstOf S t variants input i loads') := by
  induction h generalizing i with
  | nil => exact .refl _
  | @cons load load' loads loads' h _ ih =>
    rcases h (some input) with h | h
    case inl => exact .inl <| by simp [firstOf, h, Run.unfinished]
    case inr =>
      obtain ⟨ho, hl⟩ := untrailed_eq_iff.mp h
      simp only [firstOf]
      cases hx : (load (some input)).outcome with
      | done v =>
        rw [hx] at ho
        rw [Outcome.untrailed_eq_done_iff.mp ho.symm, hl]
        exact .refl _
      | unfinished => exact .inl rfl
      | failed e =>
        cases hy : (load' (some input)).outcome <;> rw [hx, hy] at ho <;>
          simp only [Outcome.untrailed, Outcome.mapError, reduceCtorEq, Outcome.failed.injEq] at ho
        case failed e' =>
          rcases ih (i + 1) with ih | ih
          · exact .inl ih
          · obtain ⟨ho', hl'⟩ := untrailed_eq_iff.mp ih
            refine .inr <| untrailed_eq_iff.mpr ⟨ho', ?_⟩
            simp [hl, hl', rejected, ConversionError.message_eq_of_untrailed ho]

theorem union_mono {t : Ty} {variants : List Variant} {loads loads' : List Rule}
    (h : List.Forall₂ Rule.Below loads loads') :
    (union S t variants loads).Below (union S t variants loads') :=
  fun _ => .bind_right fun _ => firstOf_mono h 0

end Load

namespace Direct

open Load

variable {S : Schema} {hooks : Hooks} {options : Options} {r r' : Load.Rule}

theorem loadHooked_mono {t : Ty} (h : r.Below r') :
    (loadHooked hooks t r).Below (loadHooked hooks t r') := by
  unfold loadHooked
  cases hooks.load? t with
  | some _ => exact .refl _
  | none => exact h

theorem loadPart_mono {default : Option Value} {found : Run (Option Tree)} (h : r.Below r') :
    (loadPart r default found).Below (loadPart r' default found) := by
  refine .bind_right fun t => ?_
  cases t <;> cases default
  case none.some => exact .refl _
  all_goals exact h _

theorem loadTuple_mono {t : Ty} {rules rules' : List Load.Rule}
    (h : List.Forall₂ Rule.Below rules rules') :
    (loadTuple S t rules).Below (loadTuple S t rules') := by
  intro input
  simp only [loadTuple, h.length_eq]
  refine .bind_right fun _ => (Below.forEach ?_ 0).bind fun _ => .refl _
  exact h.imp fun _ _ h _ => (loadPart_mono h).within _

-- The same fields, with rules that are below one another.
def FieldsBelow (fields fields' : List (Field × Load.Rule)) : Prop :=
  List.Forall₂ (fun a b => a.1 = b.1 ∧ a.2.Below b.2) fields fields'

theorem FieldsBelow.map_fst {fields fields' : List (Field × Load.Rule)}
    (h : FieldsBelow fields fields') : fields.map (·.1) = fields'.map (·.1) := by
  induction h with
  | nil => rfl
  | cons h _ ih => simp only [List.map_cons, h.left, ih]

theorem fieldsBelow_map {fields : List Field} {r r' : Field → Load.Rule}
    (h : ∀ f ∈ fields, (r f).Below (r' f)) :
    FieldsBelow (fields.map fun f => (f, r f)) (fields.map fun f => (f, r' f)) :=
  forall₂_maps fun f hf => ⟨rfl, h f hf⟩

theorem FieldsBelow.forEach {fields fields' : List (Field × Load.Rule)}
    (h : FieldsBelow fields fields') {load : Nat → Field × Load.Rule → Run Value}
    (hl : ∀ i f (r r' : Load.Rule), r.Below r' → (load i (f, r)).Below (load i (f, r'))) :
    (Run.forEach load 0 fields).Below (Run.forEach load 0 fields') := by
  refine Below.forEach (h.imp ?_) 0
  rintro ⟨f, r⟩ ⟨_, r'⟩ ⟨rfl, hr⟩ i
  exact hl i f r r' hr

theorem loadMapping_mono {t : Ty} {fields fields' : List (Field × Load.Rule)}
    (h : FieldsBelow fields fields') :
    (loadMapping S options t fields).Below (loadMapping S options t fields') := by
  intro input
  have hk : fields.map (·.1.key) = fields'.map (·.1.key) := by
    have := congrArg (List.map Field.key) h.map_fst
    rwa [List.map_map, List.map_map] at this
  simp only [loadMapping, hk]
  refine .bind_right fun _ => ?_
  split
  case isTrue =>
    refine .bind_right fun _ => .bind (h.forEach fun _ _ _ _ hr => ?_) fun _ => .refl _
    exact (loadPart_mono hr).within _
  case isFalse =>
    refine .bind (h.forEach fun _ _ _ _ hr => ?_) fun _ => .refl _
    exact (loadPart_mono hr).within _

theorem loadSequence_mono {t : Ty} {fields fields' : List (Field × Load.Rule)}
    (h : FieldsBelow fields fields') :
    (loadSequence S t fields).Below (loadSequence S t fields') := by
  intro input
  simp only [loadSequence, h.map_fst, h.length_eq]
  refine .bind_right fun _ => .bind (h.forEach fun _ _ _ _ hr => ?_) fun _ => .refl _
  exact (loadPart_mono hr).within _

end Direct

namespace Dump

variable {S : Schema} {r r' k k' : Rule}

theorem Rule.Below.refl (r : Rule) : r.Below r :=
  fun _ => .refl _

theorem Rule.Below.trans {r₁ r₂ r₃ : Rule} (h₁ : r₁.Below r₂) (h₂ : r₂.Below r₃) : r₁.Below r₃ :=
  fun v => (h₁ v).trans (h₂ v)

theorem Rule.Below.of_eq {r r' : Rule} (h : r = r') : r.Below r' :=
  h ▸ .refl r

theorem optional_mono {t : Ty} (h : r.Below r') : (optional S t r).Below (optional S t r') := by
  refine fun _ => .bind_right fun found => ?_
  cases found with
  | some w => exact h w
  | none => exact .refl _

theorem boxed_mono {t : Ty} (h : r.Below r') : (boxed S t r).Below (boxed S t r') :=
  fun _ => .bind_right fun w => h w

theorem list_mono {t : Ty} (h : r.Below r') : (list S t r).Below (list S t r') :=
  fun _ => .bind_right fun _ =>
    (Below.forEach_mem (fun _ _ _ => (h _).within _) 0).bind fun _ => .refl _

theorem map_mono {t : Ty} {kind : MapKind} (hk : k.Below k') (h : r.Below r') :
    (map S t kind k r).Below (map S t kind k' r') := by
  refine fun _ => .bind_right fun _ => (Below.forEach_mem (fun _ _ _ => ?_) 0).bind fun _ => .refl _
  exact (hk _).bind fun _ => .bind_right fun _ => ((h _).within _).bind fun _ => .refl _

theorem union_mono {t : Ty} {dumps dumps' : List Rule} (h : List.Forall₂ Rule.Below dumps dumps') :
    (union S t dumps).Below (union S t dumps') := by
  refine fun _ => .bind_right fun (index, payload) => ?_
  rcases getElem?_of_forall₂ h index with ⟨h, h'⟩ | ⟨_, _, h, h', hr⟩ <;> simp only [h, h']
  · exact .refl _
  · exact hr payload

end Dump

namespace Direct

open Dump

variable {S : Schema} {hooks : Hooks} {options : Options} {r r' : Dump.Rule}

theorem dumpHooked_mono {t : Ty} (h : r.Below r') :
    (dumpHooked hooks t r).Below (dumpHooked hooks t r') := by
  unfold dumpHooked
  cases hooks.dump? t with
  | some _ => exact .refl _
  | none => exact h

theorem dumpPart_mono {found : Except SchemaError (Option Value)} (h : r.Below r') :
    (dumpPart r found).Below (dumpPart r' found) :=
  .bind_right fun v => h v

theorem dumpTuple_mono {t : Ty} {rules rules' : List Dump.Rule}
    (h : List.Forall₂ Rule.Below rules rules') :
    (dumpTuple S t rules).Below (dumpTuple S t rules') := by
  refine fun _ => (Below.forEach ?_ 0).bind fun _ => .refl _
  exact h.imp fun _ _ h _ => (dumpPart_mono h).within _

-- The same fields, with rules that are below one another.
def DumpsBelow (fields fields' : List (Field × Dump.Rule)) : Prop :=
  List.Forall₂ (fun a b => a.1 = b.1 ∧ a.2.Below b.2) fields fields'

theorem dumpsBelow_map {fields : List Field} {r r' : Field → Dump.Rule}
    (h : ∀ f ∈ fields, (r f).Below (r' f)) :
    DumpsBelow (fields.map fun f => (f, r f)) (fields.map fun f => (f, r' f)) :=
  forall₂_maps fun f hf => ⟨rfl, h f hf⟩

theorem dumpMapping_mono {t : Ty} {v : Value} {fields fields' : List (Field × Dump.Rule)}
    (h : DumpsBelow fields fields') (i : Nat) (entries : List (String × Tree)) :
    (dumpMapping S options t v i entries fields).Below
      (dumpMapping S options t v i entries fields') := by
  induction h generalizing i entries with
  | nil => exact .refl _
  | @cons a b _ _ h _ ih =>
    obtain ⟨_, _⟩ := a
    obtain ⟨_, _⟩ := b
    obtain ⟨hf, hr⟩ := h
    cases hf
    exact ((dumpPart_mono hr).within _).bind fun _ => ih _ _

theorem dumpSequence_mono {t : Ty} {fields fields' : List (Field × Dump.Rule)}
    (h : DumpsBelow fields fields') : (dumpSequence S t fields).Below (dumpSequence S t fields') := by
  refine fun _ => (Below.forEach ?_ 0).bind fun _ => .refl _
  refine h.imp fun ⟨_, _⟩ ⟨_, _⟩ ⟨hf, hr⟩ _ => ?_
  cases hf
  exact (dumpPart_mono hr).within _

end Direct
end TreeCodec
