import TreeCodec.Proofs.DumpCalls
import TreeCodec.Proofs.Dumped
import TreeCodec.Proofs.EndsAlike
import TreeCodec.Proofs.Form

/-!
Trees from which the null fields of records were taken out.

What is taken out depends on what a tree was dumped from: a null under the key of a record that is
written as an object goes, and the same null in a list, in a map or in what a hook gave stays.
-/
namespace TreeCodec

-- Dump hooks that refuse values of other types.
def Hooks.Guarded (hooks : Hooks) : Prop :=
  ∀ t f v x, hooks.dump? t = some f → f v = .ok x → v.ty = t

-- Hooks that are registered do.
theorem Hooks.Guarded.registerDump {hooks : Hooks} (h : hooks.Guarded) (S : Schema) (t : Ty)
    (f : DumpHook) : (hooks.registerDump S t f).Guarded := by
  intro u g v x hg hv
  rw [dump?_registerDump] at hg
  split at hg
  case isFalse => exact h u g v x hg hv
  case isTrue hu =>
    cases hg
    unfold checked at hv
    split at hv
    case isTrue ht => exact ht.trans hu.symm
    case isFalse => nomatch hv

-- A value with the tree that it is dumped as, and what is left of that tree.
@[ext]
structure Pruning where
  value  : Value
  full   : Tree
  pruned : Tree

-- An entry of a map, with the tree of the key and the text of it.
@[ext]
structure PrunedEntry where
  key     : Value
  keyTree : Tree
  name    : String
  part    : Pruning

namespace PrunedEntry

def entry (r : PrunedEntry) : Value × Value := (r.key, r.part.value)

def full (r : PrunedEntry) : String × Tree := (r.name, r.part.full)

def pruned (r : PrunedEntry) : String × Tree := (r.name, r.part.pruned)

end PrunedEntry

-- What is left of the tree that a value is dumped as for a type. Of the fields of a record that is
-- written as an object those stay whose trees are not null in the end. Everything else stays, in
-- the order that it has.
inductive Pruned (S : Schema) (hooks : Hooks) : Ty → Value → Tree → Tree → Prop
  -- The helpers of two types can have one name, so a hook can be that of another type.
  | hook {t u : Ty} {f : DumpHook} {v : Value} {x : Tree} :
    (hooks.dump? t).isSome → hooks.dump? u = some f → f v = .ok x → Pruned S hooks t v x x
  | scalar {t : Ty} {s : ScalarTy} {v : Value} {a : Scalar} :
    hooks.dump? t = none → S.IsLeaf t → s.toScalar v = .ok a →
    Pruned S hooks t v a.toTree a.toTree
  | tree {t u : Ty} {x : Tree} :
    hooks.dump? t = none → S.IsLeaf t → Pruned S hooks t (.tree u x) x x
  | none {u w : Ty} :
    hooks.dump? (.optional u) = none → Pruned S hooks (.optional u) (.none w) .null .null
  | some {u : Ty} {v : Value} {x y : Tree} :
    hooks.dump? (.optional u) = none → Pruned S hooks u v x y →
    Pruned S hooks (.optional u) (.some v) x y
  | boxed {u : Ty} {v : Value} {x y : Tree} :
    hooks.dump? (.boxed u) = none → Pruned S hooks u v x y →
    Pruned S hooks (.boxed u) (.boxed v) x y
  | list {k k' : ListKind} {u w : Ty} {vs : List Value} {rows : List Pruning} :
    hooks.dump? (.list k u) = none → rows.map Pruning.value = vs →
    (∀ r ∈ rows, Pruned S hooks u r.value r.full r.pruned) →
    Pruned S hooks (.list k u) (.list k' w vs) (.array (rows.map Pruning.full))
      (.array (rows.map Pruning.pruned))
  | map {k k' : MapKind} {s u a b : Ty} {es : List (Value × Value)} {rows : List PrunedEntry} :
    hooks.dump? (.map k s u) = none → rows.map PrunedEntry.entry = es →
    (∀ r ∈ rows, Pruned S hooks s r.key r.keyTree r.keyTree) →
    (∀ r ∈ rows, r.keyTree.keyText = .ok r.name) →
    (∀ r ∈ rows, Pruned S hooks u r.part.value r.part.full r.part.pruned) →
    Pruned S hooks (.map k s u) (.map k' a b es)
      (.object (Keyed.ofList ((Dump.written k' PrunedEntry.name rows).map PrunedEntry.full)))
      (.object (Keyed.ofList ((Dump.written k' PrunedEntry.name rows).map PrunedEntry.pruned)))
  | tuple {ts : List Ty} {v : Value} {rows : List (Ty × Pruning)} :
    hooks.dump? (.tuple ts) = none → rows.map Prod.fst = ts →
    (∀ i r, rows[i]? = some r → S.getElement (.tuple ts) i v = .ok (some r.2.value)) →
    (∀ r ∈ rows, Pruned S hooks r.1 r.2.value r.2.full r.2.pruned) →
    Pruned S hooks (.tuple ts) v (.array (rows.map fun r => r.2.full))
      (.array (rows.map fun r => r.2.pruned))
  | sequence {t : Ty} {v : Value} {rows : List (Field × Pruning)} :
    hooks.dump? t = none → S.shape t = .record (rows.map Prod.fst) true →
    (∀ i r, rows[i]? = some r → S.getField t i v = .ok (some r.2.value)) →
    (∀ r ∈ rows, Pruned S hooks r.1.ty r.2.value r.2.full r.2.pruned) →
    Pruned S hooks t v (.array (rows.map fun r => r.2.full)) (.array (rows.map fun r => r.2.pruned))
  | mapping {t : Ty} {v : Value} {rows : List (Field × Pruning)} :
    hooks.dump? t = none → S.shape t = .record (rows.map Prod.fst) false →
    (∀ i r, rows[i]? = some r → S.getField t i v = .ok (some r.2.value)) →
    (∀ r ∈ rows, Pruned S hooks r.1.ty r.2.value r.2.full r.2.pruned) →
    Pruned S hooks t v (.object (rows.map fun r => (r.1.key, r.2.full)))
      (.object ((rows.filter fun r => r.2.pruned ≠ .null).map fun r => (r.1.key, r.2.pruned)))
  | union {t : Ty} {id : String} {variants : List Variant} {i : Nat} {variant : Variant} {v : Value}
      {x y : Tree} :
    hooks.dump? t = none → S.shape t = .union variants → variants[i]? = some variant →
    Pruned S hooks variant.ty v x y → Pruned S hooks t (.union id i v) x y

-- Rows that show the same items are the same, if the items tell them.
theorem eq_of_map_eq {α ρ : Type} {item : ρ → α} {rows rows' : List ρ}
    (he : rows.map item = rows'.map item)
    (h : ∀ (i : Nat) (r r' : ρ), rows[i]? = some r → rows'[i]? = some r' → item r = item r' →
      r = r') :
    rows = rows' := by
  have hlen : rows.length = rows'.length := by simpa using congrArg List.length he
  refine List.ext_getElem hlen fun i hi hi' => ?_
  refine h i _ _ (List.getElem?_eq_getElem hi) (List.getElem?_eq_getElem hi') ?_
  have hitem := congrArg (·[i]?) he
  simpa [List.getElem?_map, hi, hi'] using hitem

theorem ScalarTy.toScalar_unique {s s' : ScalarTy} {v : Value} {a a' : Scalar}
    (h : s.toScalar v = .ok a) (h' : s'.toScalar v = .ok a') : a = a' := by
  unfold toScalar at h h'
  split at h
  case isFalse => nomatch h
  case isTrue hs =>
    split at h'
    case isFalse => nomatch h'
    case isTrue hs' =>
      cases hs.symm.trans hs'
      exact Except.ok.inj (h.symm.trans h')

-- So are rows of parts that are found under the same places.
theorem eq_of_parts {κ : Type} {rows rows' : List (κ × Pruning)}
    {found : Nat → Except SchemaError (Option Value)} {P : κ → Value → Tree → Tree → Prop}
    (he : rows.map Prod.fst = rows'.map Prod.fst)
    (hv : ∀ i r, rows[i]? = some r → found i = .ok (some r.2.value))
    (hv' : ∀ i r, rows'[i]? = some r → found i = .ok (some r.2.value))
    (h : ∀ r ∈ rows, ∀ {x y : Tree}, P r.1 r.2.value x y → r.2.full = x ∧ r.2.pruned = y)
    (h' : ∀ r ∈ rows', P r.1 r.2.value r.2.full r.2.pruned) : rows = rows' := by
  refine eq_of_map_eq he fun i r r' hr hr' hk => ?_
  have hvalue : r.2.value = r'.2.value :=
    Option.some.inj <| Except.ok.inj <| (hv i r hr).symm.trans (hv' i r' hr')
  have hp := h' r' (List.mem_of_getElem? hr')
  rw [← hk, ← hvalue] at hp
  have ⟨hx, hy⟩ := h r (List.mem_of_getElem? hr) hp
  exact Prod.ext hk (Pruning.ext hvalue hx hy)

namespace Pruned

variable {S : Schema} {hooks : Hooks} {t : Ty} {v : Value} {x y : Tree}

-- Nothing is taken out of a tree that can be a key, and what cannot be a key cannot be one after.
theorem eq_or_nonStringKey (h : Pruned S hooks t v x y) :
    y = x ∨ (x.keyText = .error .nonStringKey ∧ y.keyText = .error .nonStringKey) := by
  induction h with
  | hook | scalar | tree | none => exact .inl rfl
  | some _ _ ih | boxed _ _ ih | union _ _ _ _ ih => exact ih
  | list | map | tuple | sequence | mapping => exact .inr ⟨rfl, rfl⟩

-- A tree is null in the end exactly if it was null before.
theorem eq_null_iff (h : Pruned S hooks t v x y) : y = .null ↔ x = .null := by
  induction h with
  | hook | scalar | tree | none => rfl
  | some _ _ ih | boxed _ _ ih | union _ _ _ _ ih => exact ih
  | list | map | tuple | sequence | mapping => simp

-- A value is dumped as one tree for a type, and one tree is left of it.
theorem unique (hg : hooks.Guarded) {x' y' : Tree} (h : Pruned S hooks t v x y)
    (h' : Pruned S hooks t v x' y') : x = x' ∧ y = y' := by
  -- A type has one hook or none, and one shape, so both derivations end with one constructor.
  induction h generalizing x' y' with
  | hook ht hf hx =>
    cases h' with
    | hook _ hf' hx' =>
      cases (hg _ _ _ _ hf hx).symm.trans (hg _ _ _ _ hf' hx')
      simp_all
    | _ => simp_all
  | scalar hh hl ha =>
    cases h' with
    | scalar _ _ ha' =>
      obtain rfl := ScalarTy.toScalar_unique ha ha'
      exact ⟨rfl, rfl⟩
    | _ => simp_all [Schema.IsLeaf, Schema.shape, ScalarTy.toScalar]
  | tree hh hl => cases h' <;> simp_all [Schema.IsLeaf, Schema.shape, ScalarTy.toScalar]
  | none hh => cases h' <;> simp_all [Schema.IsLeaf, Schema.shape]
  | some hh _ ih =>
    cases h' with
    | some _ h' => exact ih h'
    | _ => simp_all [Schema.IsLeaf, Schema.shape]
  | boxed hh _ ih =>
    cases h' with
    | boxed _ h' => exact ih h'
    | _ => simp_all [Schema.IsLeaf, Schema.shape]
  | @list _ _ _ _ _ rows hh hvs _ ih =>
    cases h' with
    | @list _ _ _ _ _ rows' _ hvs' h' =>
      have hrows : rows = rows' := by
        refine eq_of_map_eq (hvs.trans hvs'.symm) fun i r r' hr hr' hv => ?_
        obtain ⟨hx, hy⟩ := ih r (List.mem_of_getElem? hr) (hv ▸ h' r' (List.mem_of_getElem? hr'))
        exact Pruning.ext hv hx hy
      exact hrows ▸ ⟨rfl, rfl⟩
    | _ => simp_all [Schema.IsLeaf, Schema.shape]
  | @map _ _ _ _ _ _ _ rows hh hes _ hname _ ihk ih =>
    cases h' with
    | @map _ _ _ _ _ _ _ rows' _ hes' hk' hname' h' =>
      have hrows : rows = rows' := by
        refine eq_of_map_eq (hes.trans hes'.symm) fun i r r' hr hr' he => ?_
        have hm := List.mem_of_getElem? hr
        have hm' := List.mem_of_getElem? hr'
        obtain ⟨hkey, hv⟩ : r.key = r'.key ∧ r.part.value = r'.part.value := Prod.mk.inj he
        obtain ⟨hkt, _⟩ := ihk r hm (hkey ▸ hk' r' hm')
        have hn : r.name = r'.name :=
          Except.ok.inj <| (hname r hm).symm.trans <| hkt ▸ hname' r' hm'
        obtain ⟨hx, hy⟩ := ih r hm (hv ▸ h' r' hm')
        exact PrunedEntry.ext hkey hkt hn (Pruning.ext hv hx hy)
      exact hrows ▸ ⟨rfl, rfl⟩
    | _ => simp_all [Schema.IsLeaf, Schema.shape]
  | tuple hh hts hv _ ih =>
    cases h' with
    | tuple _ hts' hv' h' =>
      obtain rfl := eq_of_parts (hts.trans hts'.symm) hv hv' ih h'
      exact ⟨rfl, rfl⟩
    | _ => simp_all [Schema.IsLeaf, Schema.shape]
  | sequence hh hs hv _ ih =>
    cases h' with
    | sequence _ hs' hv' h' =>
      obtain rfl := eq_of_parts (Shape.record.inj (hs.symm.trans hs')).left hv hv'
        (P := fun f => Pruned S hooks f.ty) ih h'
      exact ⟨rfl, rfl⟩
    | _ => simp_all [Schema.IsLeaf, Schema.shape]
  | mapping hh hs hv _ ih =>
    cases h' with
    | mapping _ hs' hv' h' =>
      obtain rfl := eq_of_parts (Shape.record.inj (hs.symm.trans hs')).left hv hv'
        (P := fun f => Pruned S hooks f.ty) ih h'
      exact ⟨rfl, rfl⟩
    | _ => simp_all [Schema.IsLeaf, Schema.shape]
  | union hh hs hi _ ih =>
    cases h' with
    | union _ hs' hi' h' =>
      cases hs.symm.trans hs'
      cases hi.symm.trans hi'
      exact ih h'
    | _ => simp_all [Schema.IsLeaf, Schema.shape]

end Pruned

/-! ## Rules -/

namespace Dump

variable {S : Schema} {hooks : Hooks} {t u : Ty} {v : Value} {r r' : Rule}

-- Two rules end alike on a value, with what the first one gives and what is left of it.
def Prunes (S : Schema) (hooks : Hooks) (t : Ty) (r r' : Rule) (v : Value) : Prop :=
  (r v).EndsAlike (Pruned S hooks t v) (r' v)

theorem scalar_prunes (hh : hooks.dump? t = none) (hl : S.IsLeaf t) (k : ScalarTy) :
    Prunes S hooks t (scalar k) (scalar k) v :=
  .ofExcept_bind fun _ ha => .pure (.scalar hh hl ha)

theorem tree_prunes (hh : hooks.dump? t = none) (hl : S.IsLeaf t) (u : Ty) :
    Prunes S hooks t (tree S u) (tree S u) v := by
  show Run.EndsAlike _ (Run.ofExcept (S.toTree u v)) (Run.ofExcept (S.toTree u v))
  cases hx : S.toTree u v with
  | error => exact .failed _
  | ok x =>
    obtain rfl := Schema.toTree_eq_ok_iff.mp hx
    exact .pure (.tree hh hl)

theorem hook_prunes {f : DumpHook} (ht : (hooks.dump? t).isSome) (hf : hooks.dump? u = some f) :
    Prunes S hooks t (hook f) (hook f) v := by
  unfold Prunes hook
  cases hx : f v with
  | error => exact .fault _
  | ok x => exact .pure (.hook ht hf hx)

theorem optional_prunes (hh : hooks.dump? (.optional u) = none)
    (h : ∀ w, w.size < v.size → Prunes S hooks u r r' w) :
    Prunes S hooks (.optional u) (optional S t r) (optional S t r') v := by
  refine .ofExcept_bind fun o ho => ?_
  have ⟨_, ho⟩ := Schema.optionValue_eq_ok_iff.mp ho
  cases o with
  | none =>
    obtain ⟨w, rfl⟩ := ho
    exact .pure (.none hh)
  | some w =>
    obtain rfl : v = .some w := ho
    exact (h w (Nat.lt_succ_self _)).imp fun _ _ => .some hh

theorem boxed_prunes (hh : hooks.dump? (.boxed u) = none)
    (h : ∀ w, w.size < v.size → Prunes S hooks u r r' w) :
    Prunes S hooks (.boxed u) (boxed S t r) (boxed S t r') v := by
  refine .ofExcept_bind fun w hw => ?_
  obtain ⟨_, rfl⟩ := Schema.boxValue_eq_ok_iff.mp hw
  exact (h w (Nat.lt_succ_self _)).imp fun _ _ => .boxed hh

theorem list_prunes {k : ListKind} (hh : hooks.dump? (.list k u) = none)
    (h : ∀ w, w.size < v.size → Prunes S hooks u r r' w) :
    Prunes S hooks (.list k u) (list S t r) (list S t r') v := by
  refine .ofExcept_bind fun vs hvs => ?_
  obtain ⟨_, k', w, rfl⟩ := Schema.listItems_eq_ok_iff.mp hvs
  have hitem (w : Value) (hw : w ∈ vs) (i : Nat) : ((r w).within (.index i)).EndsAlike
      (fun x y => ∃ row : Pruning, row.value = w ∧ row.full = x ∧ row.pruned = y ∧
        Pruned S hooks u row.value row.full row.pruned) ((r' w).within (.index i)) := by
    refine ((h w (Nat.lt_succ_of_le (Value.size_le_sizeList hw))).within _).imp fun x y hp => ?_
    exact ⟨⟨w, x, y⟩, rfl, rfl, rfl, hp⟩
  have hitems := Run.EndsAlike.forEach Pruning.value Pruning.full Pruning.pruned hitem 0
  refine hitems.bind ?_
  rintro _ _ ⟨rows, hvs, rfl, rfl, hrows⟩
  exact .pure (.list hh hvs hrows)

theorem keyText_eq_pure {x : Tree} {name : String} (h : x.keyText = .ok name) :
    keyText x = pure name := by
  simp only [keyText, h]

theorem keyText_eq_fault {x : Tree} {f : Fault} (h : x.keyText = .error f) :
    keyText x = Run.fault f := by
  simp only [keyText, h]

-- What is written for an entry of a map.
def entry (dumpKey dumpValue : Rule) (e : Value × Value) : Run (String × Tree) := do
  let key ← dumpKey e.1
  let name ← keyText key
  let t ← (dumpValue e.2).within (.key name)
  return (name, t)

theorem entry_prunes {s : Ty} {q q' : Rule} {e : Value × Value}
    (hk : Prunes S hooks s q q' e.1) (h : Prunes S hooks u r r' e.2) :
    (entry q r e).EndsAlike
      (fun x y => ∃ row : PrunedEntry, row.entry = e ∧ row.full = x ∧ row.pruned = y ∧
        Pruned S hooks s row.key row.keyTree row.keyTree ∧ row.keyTree.keyText = .ok row.name ∧
        Pruned S hooks u row.part.value row.part.full row.part.pruned)
      (entry q' r' e) := by
  refine hk.bind fun x y hxy => ?_
  -- A key is one tree on both sides, or there is no text for it on either side.
  rcases hxy.eq_or_nonStringKey with rfl | ⟨hx, hy⟩
  case inr =>
    rw [keyText_eq_fault hx, keyText_eq_fault hy]
    exact .failed _
  case inl =>
    cases hname : y.keyText with
    | error f =>
      rw [keyText_eq_fault hname]
      exact .failed _
    | ok name =>
      rw [keyText_eq_pure hname]
      refine (Run.EndsAlike.within h (.key name)).bind fun x' y' hp => .pure ?_
      exact ⟨⟨e.1, y, name, ⟨e.2, x', y'⟩⟩, rfl, rfl, rfl, hxy, hname, hp⟩

theorem map_prunes {k : MapKind} (k' : MapKind) {s : Ty} (a b : Ty) {q q' : Rule}
    (hh : hooks.dump? (.map k s u) = none)
    (hk : ∀ w, w.size < v.size → Prunes S hooks s q q' w)
    (h : ∀ w, w.size < v.size → Prunes S hooks u r r' w) :
    Prunes S hooks (.map k s u) (map S (.map k' a b) k' q r) (map S (.map k' a b) k' q' r') v := by
  refine .ofExcept_bind fun es hes => ?_
  obtain ⟨ht, k'', a', b', rfl⟩ := Schema.mapEntries_eq_ok_iff.mp hes
  cases ht
  have hsizes (e : Value × Value) (he : e ∈ es) :
      e.1.size < (Value.map k' a b es).size ∧ e.2.size < (Value.map k' a b es).size := by
    have hsize := Value.size_le_sizeEntries he
    simp only [Value.size]
    omega
  have hentries := Run.EndsAlike.forEach PrunedEntry.entry PrunedEntry.full PrunedEntry.pruned
    (fun e he _ => entry_prunes (hk e.1 (hsizes e he).left) (h e.2 (hsizes e he).right)) 0
  refine hentries.bind ?_
  rintro _ _ ⟨rows, hes, rfl, rfl, hrows⟩
  have hpruned : Pruned S hooks (.map k s u) (.map k' a b es) _ _ := .map hh hes
    (fun r hr => (hrows r hr).left) (fun r hr => (hrows r hr).right.left)
    (fun r hr => (hrows r hr).right.right)
  cases k' with
  | ordered => exact .pure hpruned
  | unordered =>
    refine .pure ?_
    have hfull : sortByKey (rows.map PrunedEntry.full) = _ := sortByKey_eq _ _ rows
    have hpart : sortByKey (rows.map PrunedEntry.pruned) = _ := sortByKey_eq _ _ rows
    simp only [hfull, hpart]
    exact hpruned

theorem union_prunes {variants : List Variant} {rules rules' : List Rule}
    (hh : hooks.dump? u = none) (hs : S.shape u = .union variants)
    (h : ∀ (i : Nat) (w : Value), w.size < v.size →
      (rules[i]? = none ∧ rules'[i]? = none) ∨ ∃ (r r' : Rule) (variant : Variant),
        rules[i]? = some r ∧ rules'[i]? = some r' ∧ variants[i]? = some variant ∧
          Prunes S hooks variant.ty r r' w) :
    Prunes S hooks u (union S t rules) (union S t rules') v := by
  refine .ofExcept_bind fun (i, w) hw => ?_
  obtain ⟨_, id, rfl⟩ := Schema.activeVariant_eq_ok_iff.mp hw
  rcases h i w (Nat.lt_succ_self _) with ⟨hr, hr'⟩ | ⟨r, r', variant, hr, hr', hv, hp⟩
  · simp only [hr, hr']
    exact .fault _
  · simp only [hr, hr']
    exact Run.EndsAlike.imp hp fun _ _ => .union hh hs hv

-- A part that is there is dumped alike, or it is missing on both sides.
theorem part_prunes {found : Except SchemaError (Option Value)}
    (h : ∀ w, found = .ok (some w) → Prunes S hooks u r r' w) :
    (part found >>= r).EndsAlike
      (fun x y => ∃ w, found = .ok (some w) ∧ Pruned S hooks u w x y) (part found >>= r') := by
  match found with
  | .error e => exact .failed _
  | .ok none => exact .failed _
  | .ok (some w) => exact (h w rfl).imp fun _ _ hp => ⟨w, rfl, hp⟩

end Dump
end TreeCodec
