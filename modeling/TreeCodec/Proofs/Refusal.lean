import TreeCodec.Convert.Dump
import TreeCodec.Procedure.Meaning
import TreeCodec.Proofs.RunFailure
import TreeCodec.Proofs.ValueParts

/-!
Values that a dump hook refused, and where they stand.

A value that is dumped is followed through its parts to the one that was refused. Every part that
has a place of its own in the tree makes a step, which is written one way in the tree and may be
told in another one by an error.
-/
namespace TreeCodec

/-! ## Values within values -/

-- One step from a value to a part of it that has a place of its own in the tree that is written.
inductive DumpStep where
  -- Field number `i` of a record.
  | field (f : Field) (i : Nat) (positional : Bool)
  | element (i : Nat)
  | item (i : Nat)
  -- The value of a map entry, by the text of the key.
  | entry (key : String)

namespace DumpStep

-- The step in the tree that is written.
def written : DumpStep → PathStep
  | field f _ false => .key f.key
  | field _ i true | element i | item i => .index i
  | entry key => .key key

-- The step in the path of an error.
def told : DumpStep → PathStep
  | field f .. => .key f.name
  | element i | item i => .index i
  | entry key => .key key

-- An error that passes through a field names it as the tree does.
def Faithful : DumpStep → Prop
  | field f _ positional => positional = false ∧ f.name = f.key
  | _ => True

theorem told_eq_written_iff (s : DumpStep) : s.told = s.written ↔ s.Faithful := by
  cases s with
  | field f i positional => cases positional <;> simp [told, written, Faithful]
  | _ => simp [told, written, Faithful]

theorem map_told_eq_iff (steps : List DumpStep) :
    steps.map told = steps.map written ↔ ∀ s ∈ steps, s.Faithful := by
  rw [List.map_inj_left]
  exact forall₂_congr fun s _ => s.told_eq_written_iff

end DumpStep

mutual

-- The expressions in an expression that dump keys of maps, each with the variable of the key.
def Expr.keyParts : Expr → List (String × Expr)
  | .leaf .. | .call .. => []
  | .optional _ _ _ e | .boxed _ _ _ e | .list _ _ _ e => e.keyParts
  | .map _ _ x k _ e => (x, k) :: (k.keyParts ++ e.keyParts)
  | .union _ _ _ es => Expr.keyPartsAll es

def Expr.keyPartsAll : List Expr → List (String × Expr)
  | [] => []
  | e :: es => e.keyParts ++ keyPartsAll es

end

def Stmt.keyParts (stmt : Stmt) : List (String × Expr) :=
  stmt.exprs.flatMap Expr.keyParts

def Procedure.keyParts (p : Procedure) : List (String × Expr) :=
  p.body.flatMap Stmt.keyParts

-- The text under which the value of a key is written: that of the tree which the key is dumped as.
def Renders (S : Schema) (ps : List Procedure) (k : Value) (key : String) : Prop :=
  ∃ p ∈ ps, ∃ part ∈ p.keyParts, ∃ env n tree,
    (Meaning.dumpExpr S p.locals (Meaning.callDump S ps n) part.2 ((part.1, k) :: env)).outcome =
      .done tree ∧ tree.keyText = .ok key

-- A value stands within a value, or within the key of a map in it.
inductive Stands (S : Schema) (ps : List Procedure) :
    (inKey : Bool) → Value → List DumpStep → Value → Prop
  | here {v : Value} : Stands S ps false v [] v
  | some {b : Bool} {v w : Value} {p : List DumpStep} :
    Stands S ps b v p w → Stands S ps b (.some v) p w
  | boxed {b : Bool} {v w : Value} {p : List DumpStep} :
    Stands S ps b v p w → Stands S ps b (.boxed v) p w
  | union {b : Bool} {id : String} {i : Nat} {v w : Value} {p : List DumpStep} :
    Stands S ps b v p w → Stands S ps b (.union id i v) p w
  | item {b : Bool} {k : ListKind} {t : Ty} {vs : List Value} {i : Nat} {v w : Value}
      {p : List DumpStep} :
    vs[i]? = some v → Stands S ps b v p w → Stands S ps b (.list k t vs) (.item i :: p) w
  | element {b : Bool} {vs : List Value} {i : Nat} {v w : Value} {p : List DumpStep} :
    vs[i]? = some v → Stands S ps b v p w → Stands S ps b (.tuple vs) (.element i :: p) w
  | field {b : Bool} {id : String} {vs : List Value} {fields : List Field} {positional : Bool}
      {f : Field} {i : Nat} {v w : Value} {p : List DumpStep} :
    S.shape (.declared id) = .record fields positional → fields[i]? = some f →
    vs[i]? = some v → Stands S ps b v p w →
    Stands S ps b (.record id vs) (.field f i positional :: p) w
  | entry {b : Bool} {kind : MapKind} {s t : Ty} {es : List (Value × Value)} {k v w : Value}
      {key : String} {p : List DumpStep} :
    (k, v) ∈ es → Renders S ps k key → Stands S ps b v p w →
    Stands S ps b (.map kind s t es) (.entry key :: p) w
  -- Within a key there is no place in the tree.
  | key {b : Bool} {kind : MapKind} {s t : Ty} {es : List (Value × Value)} {k v w : Value}
      {p : List DumpStep} :
    (k, v) ∈ es → Stands S ps b k p w → Stands S ps true (.map kind s t es) p w

variable (S : Schema) (hooks : Hooks) (ps : List Procedure)

-- If a hook refused, it refused a value that stands where the path of the error tells.
def Told (v : Value) (e : ConversionError) : Prop :=
  ∀ message, e.fault = .hook message → ∃ inKey steps w t hook, Stands S ps inKey v steps w ∧
    hooks.dump? t = some hook ∧ hook w = .error message ∧ e.path = steps.map DumpStep.told

variable {S hooks ps}

theorem Told.of_fault {v : Value} {e : ConversionError} (h : ∀ message, e.fault ≠ .hook message) :
    Told S hooks ps v e :=
  fun message hf => absurd hf (h message)

-- What is told from a part is told from the whole, one step further out.
theorem Told.step {v w : Value} {e : ConversionError} {step : DumpStep}
    (hs : ∀ b p u, Stands S ps b v p u → Stands S ps b w (step :: p) u)
    (h : Told S hooks ps v e) : Told S hooks ps w (e.within step.told) := by
  intro message hm
  have ⟨b, steps, u, t, hook, hstands, ht, hu, hp⟩ := h message hm
  refine ⟨b, step :: steps, u, t, hook, hs _ _ _ hstands, ht, hu, ?_⟩
  rw [List.map_cons, ← hp]
  rfl

theorem Told.same {v w : Value} {e : ConversionError}
    (hs : ∀ b p u, Stands S ps b v p u → ∃ b', Stands S ps b' w p u)
    (h : Told S hooks ps v e) : Told S hooks ps w e := by
  intro message hm
  have ⟨b, steps, u, t, hook, hstands, ht, hu, hp⟩ := h message hm
  have ⟨b', hstands⟩ := hs _ _ _ hstands
  exact ⟨b', steps, u, t, hook, hstands, ht, hu, hp⟩

/-! ## Rules -/

theorem Told.schema {v : Value} (e : SchemaError) : Told S hooks ps v { fault := .schema e } :=
  .of_fault nofun

-- What a rule tells of the values that it is given.
def Tells (S : Schema) (hooks : Hooks) (ps : List Procedure) (rule : Dump.Rule) : Prop :=
  ∀ v, (rule v).FailsWith (Told S hooks ps v)

section Rules

variable {t : Ty} {rule : Dump.Rule}

theorem tells_scalar (k : ScalarTy) : Tells S hooks ps (Dump.scalar k) :=
  fun _ => .ofExcept_bind .schema fun _ _ => .pure _

theorem tells_tree : Tells S hooks ps (Dump.tree S t) :=
  fun _ => .ofExcept .schema

theorem tells_hook {hook : DumpHook} (h : hooks.dump? t = some hook) :
    Tells S hooks ps (Dump.hook hook) := by
  intro v
  unfold Dump.hook
  cases hv : hook v with
  | ok tree => exact .pure tree
  | error message =>
    refine .fault fun message' hm => ?_
    cases hm
    exact ⟨false, [], v, t, hook, .here, h, hv, rfl⟩

theorem tells_optional (h : Tells S hooks ps rule) : Tells S hooks ps (Dump.optional S t rule) := by
  refine fun v => .ofExcept_bind .schema fun o ho => ?_
  have ⟨_, hv⟩ := Schema.optionValue_eq_ok_iff.mp ho
  cases o with
  | none => exact .pure _
  | some w =>
    cases hv
    exact (h w).imp fun _ => .same fun b _ _ hs => ⟨b, .some hs⟩

theorem tells_boxed (h : Tells S hooks ps rule) : Tells S hooks ps (Dump.boxed S t rule) := by
  refine fun v => .ofExcept_bind .schema fun w hw => ?_
  obtain ⟨_, rfl⟩ := Schema.boxValue_eq_ok_iff.mp hw
  exact (h w).imp fun _ => .same fun b _ _ hs => ⟨b, .boxed hs⟩

theorem tells_list (h : Tells S hooks ps rule) : Tells S hooks ps (Dump.list S t rule) := by
  refine fun v => .ofExcept_bind .schema fun vs hvs => ?_
  obtain ⟨_, k, u, rfl⟩ := Schema.listItems_eq_ok_iff.mp hvs
  refine .bind (.forEach 0 fun i w hi => .within ?_) fun _ _ => .pure _
  rw [Nat.zero_add]
  exact (h w).imp fun _ => .step fun _ _ _ hs => .item hi hs

theorem keyText_failsWith {v : Value} (tree : Tree) :
    (Dump.keyText tree).FailsWith (Told S hooks ps v) := by
  cases tree <;> first | exact .pure _ | exact .fault (.of_fault nofun)

theorem eq_of_keyText {tree : Tree} {key : String} (h : (Dump.keyText tree).outcome = .done key) :
    tree.keyText = .ok key := by
  unfold Dump.keyText at h
  split at h
  case h_1 hk =>
    cases h
    exact hk
  case h_2 => nomatch h

theorem tells_map {kind : MapKind} {dumpKey : Dump.Rule} (hk : Tells S hooks ps dumpKey)
    (hr : ∀ k tree key, (dumpKey k).outcome = .done tree → tree.keyText = .ok key →
      Renders S ps k key) (h : Tells S hooks ps rule) :
    Tells S hooks ps (Dump.map S t kind dumpKey rule) := by
  refine fun v => .ofExcept_bind .schema fun es hes => ?_
  obtain ⟨_, kind', u, u', rfl⟩ := Schema.mapEntries_eq_ok_iff.mp hes
  refine .bind (.forEach 0 fun i entry hi => ?_) fun _ _ => .pure _
  obtain ⟨k, w⟩ := entry
  have hm := List.mem_of_getElem? hi
  refine .bind ?key fun tree htree => .bind (keyText_failsWith tree) fun key hkey =>
    .bind (.within ?value) fun _ _ => .pure _
  case key => exact (hk k).imp fun _ => .same fun _ _ _ hs => ⟨true, .key hm hs⟩
  case value =>
    have hrender := hr k tree key htree (eq_of_keyText hkey)
    exact (h w).imp fun _ => .step fun _ _ _ hs => .entry hm hrender hs

theorem tells_union {rules : List Dump.Rule} (h : ∀ rule ∈ rules, Tells S hooks ps rule) :
    Tells S hooks ps (Dump.union S t rules) := by
  refine fun v => .ofExcept_bind .schema fun (i, w) hw => ?_
  obtain ⟨_, id, rfl⟩ := Schema.activeVariant_eq_ok_iff.mp hw
  dsimp only
  cases hi : rules[i]? with
  | none => exact .fault (.schema _)
  | some rule =>
    exact (h rule (List.mem_of_getElem? hi) w).imp fun _ => .same fun b _ _ hs => ⟨b, .union hs⟩

end Rules

end TreeCodec
