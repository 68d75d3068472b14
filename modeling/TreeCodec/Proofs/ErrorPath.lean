import TreeCodec.Proofs.Culprit
import TreeCodec.Proofs.LoadAgreement

/-!
The paths of loading errors lead to what is wrong.
-/
namespace TreeCodec

variable {S : Schema} {hooks : Hooks} {options : Options}

-- A rule of a type whose errors lead to what is wrong. An absent tree is either missing or stands
-- for a value of the type.
structure Locating (S : Schema) (hooks : Hooks) (options : Options) (t : Ty) (rule : Load.Rule) :
    Prop where
  present : ∀ x, (rule (some x)).FailsWith (Locates S hooks options t x)
  absent : (rule none).FailsWith fun e => e.fault = .missing ∧ e.path = []
  standsFor : ∀ v, (rule none).outcome = .done v → v.ty = t

/-! ## Rules -/

section Rules

variable {t : Ty} {rule : Load.Rule}

-- A rule that needs a tree, as most do.
theorem Locating.of_required (h : ∀ x, (rule (some x)).FailsWith (Locates S hooks options t x))
    (hn : rule none = Run.fault .missing) : Locating S hooks options t rule where
  present := h
  absent := hn ▸ .fault ⟨rfl, rfl⟩
  standsFor v hv := by
    rw [hn] at hv
    nomatch hv

theorem Locates.schema {x : Tree} (e : SchemaError) :
    Locates S hooks options t x { fault := .schema e } :=
  .of_reports trivial

theorem Locates.mismatch {x : Tree} (expected : Expected) :
    (Load.mismatch expected x : Run Value).FailsWith (Locates S hooks options t x) :=
  .fault <| .of_reports rfl

theorem Tree.reports_of_readScalar {k : ScalarKind} {x : Tree} {f : Fault}
    (h : x.readScalar k = .error f) : Reports f x := by
  cases k <;>
    simp only [readScalar, readBool, readInt, readUInt, readFloat, readChar, readText] at h
  all_goals
    repeat' split at h
    all_goals first | (cases h; trivial) | cases h

theorem locating_scalar (k : ScalarTy) : Locating S hooks options t (Load.scalar k) := by
  refine .of_required (fun x => ?_) rfl
  simp only [Load.scalar, Load.required, Run.pure_bind]
  split
  case h_1 => exact .ofExcept Locates.schema
  case h_2 hf => exact .fault <| .of_reports <| Tree.reports_of_readScalar hf

theorem locating_tree (u : Ty) : Locating S hooks options t (Load.tree u) :=
  .of_required (fun _ => .pure _) rfl

theorem locating_hook (h : LoadHook) : Locating S hooks options t (Load.hook h) := by
  refine .of_required (fun x => ?_) rfl
  simp only [Load.hook, Load.required, Run.pure_bind]
  split
  case h_1 => exact .pure _
  case h_2 => exact .fault <| .of_reports trivial

theorem locating_hooked (h : hooks.load? t = none → Locating S hooks options t rule) :
    Locating S hooks options t (Direct.loadHooked hooks t rule) := by
  unfold Direct.loadHooked
  cases hh : hooks.load? t with
  | some hook => exact locating_hook hook
  | none => exact h hh

theorem locating_optional (hh : hooks.load? (.optional t) = none)
    (h : Locating S hooks options t rule) :
    Locating S hooks options (.optional t) (Load.optional S t rule) where
  present x := by
    have hsome : (rule (some x) >>= fun v => Run.ofExcept (S.wrapSome t v)).FailsWith
        (Locates S hooks options (.optional t) x) := by
      refine .bind ((h.present x).imp fun e he => ?_) fun _ _ => .ofExcept Locates.schema
      exact he.around .here fun _ _ _ hc => .optional hh hc
    cases x with
    | null => exact .pure _
    | _ => exact hsome
  absent := .pure _
  standsFor v hv := by
    cases hv
    rfl

-- A box of what stands for an absent tree can always be made.
theorem locating_boxed (hh : hooks.load? (.boxed t) = none)
    (h : Locating S hooks options t rule) :
    Locating S hooks options (.boxed t) (Load.boxed S t rule) where
  present x := by
    refine .bind ((h.present x).imp fun e he => ?_) fun _ _ => .ofExcept Locates.schema
    exact he.around .here fun _ _ _ hc => .boxed hh hc
  absent := by
    refine .bind h.absent fun v hv => ?_
    simp only [Schema.wrapBox, Schema.require, h.standsFor v hv, if_true]
    exact .pure _
  standsFor v hv := by
    simp only [Load.boxed, Run.outcome_bind] at hv
    cases ho : (rule none).outcome with
    | done w =>
      have hw := h.standsFor w ho
      simp only [ho, Outcome.bind, Schema.wrapBox, Schema.require, hw, if_true] at hv
      cases hv
      exact congrArg Ty.boxed hw
    | failed | unfinished => simp [ho, Outcome.bind] at hv

theorem locating_list {k : ListKind} (hh : hooks.load? (.list k t) = none)
    (h : Locating S hooks options t rule) :
    Locating S hooks options (.list k t) (Load.list S (.list k t) t rule) := by
  refine .of_required (fun x => ?_) rfl
  cases x with
  | array items =>
    simp only [Load.list, Load.required, Run.pure_bind]
    refine .bind (.forEach 0 fun i x hx => .within ?_) fun _ _ => .ofExcept Locates.schema
    refine (h.present x).imp fun e he => ?_
    rw [Nat.zero_add]
    exact he.around (.index hx .here) fun _ _ _ hc => .item hh hx hc
  | _ => exact Locates.mismatch .sequence

-- A key is loaded as a text, within which nothing can be wrong.
theorem Locates.of_key {kind : MapKind} {s u : Ty} {k : String} {x : Tree}
    {entries : List (String × Tree)} {d : Nat} {e : ConversionError}
    (hh : hooks.load? (.map kind s u) = none) (hx : (k, x) ∈ entries)
    (hf : (Direct.load S hooks options d s (some (.text k))).outcome = .failed e)
    (h : Locates S hooks options s (.text k) e) :
    Locates S hooks options (.map kind s u) (.object entries) (e.within (.key k)) := by
  have hk : k ∈ Keyed.keys entries := List.mem_map_of_mem hx
  have hkey (hp : e.path = []) :
      KeyFails S hooks options (.map kind s u) (.object entries) (e.within (.key k)) :=
    ⟨[], kind, s, u, entries, k, .here, hh, hk, by simp [ConversionError.within, hp], d, e, hf, rfl⟩
  obtain ⟨f, path, trail⟩ := e
  cases f with
  | missing =>
    have ⟨_, _, _, _, hat, _⟩ := h
    nomatch hat.of_text.right
  | unknownKey =>
    have ⟨_, _, _, _, _, hat, _⟩ := h
    nomatch hat.of_text.right
  | _ =>
    have ⟨_, hat, _⟩ := h
    have hp := hat.of_text.left
    cases hp
    exact ⟨x, .key hx .here, .inr <| hkey rfl⟩

theorem locating_map {kind : MapKind} {s : Ty} {d : Nat} (hh : hooks.load? (.map kind s t) = none)
    (hs : Locating S hooks options s (Direct.load S hooks options d s))
    (h : Locating S hooks options t rule) :
    Locating S hooks options (.map kind s t)
      (Load.map S (.map kind s t) kind s t (Direct.load S hooks options d s) rule) := by
  refine .of_required (fun x => ?_) rfl
  cases x with
  | object entries =>
    simp only [Load.map, Load.required, Run.pure_bind]
    refine .bind (.forEach 0 fun i entry hi => ?_) fun _ _ => .ofExcept Locates.schema
    obtain ⟨k, x⟩ := entry
    have hx := List.mem_of_getElem? hi
    refine .bind (.within fun e he => ?key) fun _ _ => .bind (.within ?value) fun _ _ => .pure _
    case key => exact .of_key hh hx he <| hs.present _ e he
    case value =>
      refine (h.present x).imp fun e he => ?_
      exact he.around (.key hx .here) fun _ _ _ hc => .value hh hx hc
  | _ => exact Locates.mismatch .mapping

theorem checkSequence_failsWith {min len : Nat} {x : Tree} :
    (Load.checkSequence min len (some x)).FailsWith (Locates S hooks options t x) := by
  cases x with
  | array items =>
    show Run.FailsWith _ (if items.length < min then Run.fault (.length min items.length)
      else if len < items.length then Run.fault (.length len items.length) else pure ())
    split
    case isTrue => exact .fault <| .of_reports ⟨items, rfl, rfl⟩
    case isFalse =>
      split
      case isTrue => exact .fault <| .of_reports ⟨items, rfl, rfl⟩
      case isFalse => exact .pure ()
  | _ => exact .fault <| .of_reports rfl

theorem exists_of_checkSequence {min len : Nat} {x : Tree} {u : Unit}
    (h : (Load.checkSequence min len (some x)).outcome = .done u) :
    ∃ items, x = .array items ∧ min ≤ items.length ∧ items.length ≤ len := by
  cases x with
  | array items =>
    simp only [Load.checkSequence, Load.required, Run.pure_bind] at h
    split at h
    case isTrue => cases h
    case isFalse hmin =>
      split at h
      case isTrue => cases h
      case isFalse hlen => exact ⟨items, rfl, Nat.le_of_not_lt hmin, Nat.le_of_not_lt hlen⟩
  | _ => cases h

-- A part that is there.
theorem loadPart_some {x : Tree} (default : Option Value) :
    Direct.loadPart rule default (pure (some x)) = rule (some x) := by
  cases default <;> rfl

-- What a part reads like under a step, whether it is there or absent.
theorem locating_part {t' : Ty} {x : Tree} {step : PathStep} {found : Option Tree}
    {default : Option Value} (h : Locating S hooks options t rule)
    (hsome : ∀ y, found = some y → x.At [step] y ∧ ∀ p u z, ComesTo S hooks t y p u z →
      ComesTo S hooks t' x (step :: p) u z)
    (hnone : found = none → default = none → ∃ k entries, step = .key k ∧ x = .object entries ∧
      k ∉ Keyed.keys entries) :
    ((Direct.loadPart rule default (pure found)).within step).FailsWith
      (Locates S hooks options t' x) := by
  apply Run.FailsWith.within
  cases found with
  | some y =>
    have ⟨hat, hcomes⟩ := hsome y rfl
    rw [loadPart_some]
    exact (h.present y).imp fun e he => he.around hat hcomes
  | none => cases hd : default with
    | some v => exact .pure v
    | none =>
      have ⟨k, entries, hstep, hx, hk⟩ := hnone rfl hd
      subst hstep hx
      refine h.absent.imp fun e he => ?_
      obtain ⟨f, path, trail⟩ := e
      obtain ⟨rfl, rfl⟩ := he
      exact ⟨[], k, entries, rfl, .here, hk⟩

theorem locating_tuple {ts : List Ty} {rules : List Load.Rule}
    (hh : hooks.load? (.tuple ts) = none) (h : List.Forall₂ (Locating S hooks options) ts rules) :
    Locating S hooks options (.tuple ts) (Direct.loadTuple S (.tuple ts) rules) := by
  refine .of_required (fun x => ?_) rfl
  refine .bind checkSequence_failsWith fun _ hc => ?_
  have ⟨items, hx, hmin, _⟩ := exists_of_checkSequence hc
  subst hx
  refine .bind (.forEach 0 fun i rule hi => ?_) fun _ _ => .ofExcept Locates.schema
  rw [Nat.zero_add]
  have ⟨t, ht, hrule⟩ := exists_getElem?_of_forall₂ h.flip hi
  apply locating_part hrule
  case hsome => exact fun y hy => ⟨.index hy .here, fun _ _ _ hc => .element hh ht hy hc⟩
  case hnone =>
    intro hn
    have := List.getElem?_eq_none_iff.mp hn
    have := (List.getElem?_eq_some_iff.mp hi).choose
    omega

theorem lt_requiredLength {fields : List Field} {i : Nat} {f : Field} (hf : fields[i]? = some f)
    (hd : f.default = none) : i < requiredLength fields := by
  induction fields generalizing i with
  | nil => nomatch hf
  | cons g gs ih =>
    simp only [requiredLength]
    cases i with
    | zero =>
      cases hf
      simp [hd]
    | succ i =>
      have := ih hf
      split <;> omega

theorem checkKeys_failsWith {id : String} {fields : List Field} {entries : List (String × Tree)}
    (hs : S.shape (.declared id) = .record fields false) :
    (Load.checkKeys (fields.map Field.key) (some (.object entries))).FailsWith
      (Locates S hooks options (.declared id) (.object entries)) := by
  unfold Load.checkKeys
  dsimp only
  split
  case h_1 k hk =>
    refine .within <| .fault ⟨[], id, fields, entries, rfl, .here, List.mem_of_find?_eq_some hk,
      .here, hs, fun f hf hfk => ?_⟩
    have hunknown := List.find?_some hk
    simp only [Bool.not_eq_true', List.contains_eq_mem, decide_eq_false_iff_not] at hunknown
    exact hunknown <| List.mem_map.mpr ⟨f, hf, hfk⟩
  case h_2 => exact .pure ()

end Rules

/-! ## Types -/

section Types

variable {d : Nat}

mutual

theorem locating_type (hd : ∀ id, hooks.load? (.declared id) = none →
    Locating S hooks options (.declared id) (Direct.loadWithin S hooks options d id)) :
    ∀ t, Locating S hooks options t (Direct.load S hooks options d t)
  | .scalar k => locating_hooked fun _ => locating_scalar k
  | .dynamic => locating_hooked fun _ => locating_tree .dynamic
  | .optional t => locating_hooked fun hh => locating_optional hh <| locating_type hd t
  | .boxed t => locating_hooked fun hh => locating_boxed hh <| locating_type hd t
  | .list _ t => locating_hooked fun hh => locating_list hh <| locating_type hd t
  | .map _ s t => locating_hooked fun hh =>
    locating_map hh (locating_type hd s) (locating_type hd t)
  | .tuple ts => locating_hooked fun hh => locating_tuple hh <| locating_types hd ts
  | .declared id => locating_hooked fun hh => hd id hh

theorem locating_types (hd : ∀ id, hooks.load? (.declared id) = none →
    Locating S hooks options (.declared id) (Direct.loadWithin S hooks options d id)) :
    ∀ ts, List.Forall₂ (Locating S hooks options) ts
      (Direct.loadTypes S hooks (Direct.loadWithin S hooks options d) ts)
  | [] => .nil
  | t :: ts => .cons (locating_type hd t) (locating_types hd ts)

end

end Types

theorem Outcome.exists_failed_of_untrailed {α : Type} {o : Outcome α} {e : ConversionError}
    (h : (failed e : Outcome α).untrailed = o.untrailed) :
    ∃ e', o = failed e' ∧ e'.fault = e.fault ∧ e'.path = e.path := by
  cases o with
  | failed e' =>
    simp only [untrailed, mapError, failed.injEq, ConversionError.untrailed,
      ConversionError.mk.injEq, and_true] at h
    exact ⟨e', rfl, h.left.symm, h.right.symm⟩
  | done | unfinished => cases h

theorem Locates.of_eq {t : Ty} {x : Tree} {e e' : ConversionError}
    (h : Locates S hooks options t x e') (hf : e'.fault = e.fault) (hp : e'.path = e.path) :
    Locates S hooks options t x e := by
  obtain ⟨_, _, _⟩ := e
  cases hf
  cases hp
  exact h

end TreeCodec
