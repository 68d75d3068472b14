import TreeCodec.Convert.Direct
import TreeCodec.Proofs.RunFailure

/-!
Where an error of loading arose.

The path of an error is followed from the root of the tree that is loaded. What stands at its end
has to be what the fault tells of it.
-/
namespace TreeCodec

/-! ## Trees within trees -/

-- A path leads from a tree to a tree within it.
inductive Tree.At : Tree → List PathStep → Tree → Prop
  | here {t : Tree} : At t [] t
  | key {k : String} {t u : Tree} {entries : List (String × Tree)} {p : List PathStep} :
    (k, t) ∈ entries → At t p u → At (.object entries) (.key k :: p) u
  | index {i : Nat} {t u : Tree} {items : List Tree} {p : List PathStep} :
    items[i]? = some t → At t p u → At (.array items) (.index i :: p) u

namespace Tree.At

variable {t u v : Tree} {p q : List PathStep}

theorem append (h : t.At p u) (h' : u.At q v) : t.At (p ++ q) v := by
  induction h with
  | here => exact h'
  | key hk _ ih => exact .key hk (ih h')
  | index hi _ ih => exact .index hi (ih h')

-- A text has nothing within it.
theorem of_text {s : String} (h : (Tree.text s).At p u) : p = [] ∧ u = .text s := by
  cases h
  exact ⟨rfl, rfl⟩

end Tree.At

variable (S : Schema) (hooks : Hooks) (options : Options)

-- Loading a tree as a type comes to loading a tree within it as a type: through options, boxes and
-- the parts of containers and records, but neither into what a hook converts nor into the
-- alternatives of a union.
inductive ComesTo : Ty → Tree → List PathStep → Ty → Tree → Prop
  | here {t : Ty} {x : Tree} : ComesTo t x [] t x
  | optional {t u : Ty} {x y : Tree} {p : List PathStep} :
    hooks.load? (.optional t) = none → ComesTo t x p u y → ComesTo (.optional t) x p u y
  | boxed {t u : Ty} {x y : Tree} {p : List PathStep} :
    hooks.load? (.boxed t) = none → ComesTo t x p u y → ComesTo (.boxed t) x p u y
  | item {k : ListKind} {t u : Ty} {items : List Tree} {i : Nat} {x y : Tree} {p : List PathStep} :
    hooks.load? (.list k t) = none → items[i]? = some x → ComesTo t x p u y →
    ComesTo (.list k t) (.array items) (.index i :: p) u y
  | value {kind : MapKind} {s t u : Ty} {entries : List (String × Tree)} {k : String} {x y : Tree}
      {p : List PathStep} :
    hooks.load? (.map kind s t) = none → (k, x) ∈ entries → ComesTo t x p u y →
    ComesTo (.map kind s t) (.object entries) (.key k :: p) u y
  | element {ts : List Ty} {t u : Ty} {items : List Tree} {i : Nat} {x y : Tree}
      {p : List PathStep} :
    hooks.load? (.tuple ts) = none → ts[i]? = some t → items[i]? = some x → ComesTo t x p u y →
    ComesTo (.tuple ts) (.array items) (.index i :: p) u y
  | field {id : String} {fields : List Field} {f : Field} {entries : List (String × Tree)} {u : Ty}
      {x y : Tree} {p : List PathStep} :
    hooks.load? (.declared id) = none → S.shape (.declared id) = .record fields false →
    f ∈ fields → (f.key, x) ∈ entries → ComesTo f.ty x p u y →
    ComesTo (.declared id) (.object entries) (.key f.key :: p) u y
  | position {id : String} {fields : List Field} {f : Field} {items : List Tree} {i : Nat} {u : Ty}
      {x y : Tree} {p : List PathStep} :
    hooks.load? (.declared id) = none → S.shape (.declared id) = .record fields true →
    fields[i]? = some f → items[i]? = some x → ComesTo f.ty x p u y →
    ComesTo (.declared id) (.array items) (.index i :: p) u y

/-! ## Culprits -/

-- What a fault tells of the tree that it arose at. A missing tree and an unknown key are told of
-- the object around them.
def Reports : Fault → Tree → Prop
  | .missing, _ | .unknownKey _, _ => False
  | .typeMismatch _ found, t => found = t.kind
  | .length _ found, t => ∃ items, t = .array items ∧ found = items.length
  | _, _ => True

-- The error is that of a key of a map, which is not loaded as the key type.
def KeyFails (t : Ty) (x : Tree) (e : ConversionError) : Prop :=
  ∃ p kind s u entries k, ComesTo S hooks t x p (.map kind s u) (.object entries) ∧
    hooks.load? (.map kind s u) = none ∧ k ∈ Keyed.keys entries ∧ e.path = p ++ [.key k] ∧
    ∃ d f, (Direct.load S hooks options d s (some (.text k))).outcome = .failed f ∧
      f.fault = e.fault

-- The path of an error leads to what its fault tells of, where a tree is loaded as a type.
def Locates (t : Ty) (x : Tree) (e : ConversionError) : Prop :=
  match e.fault with
  | .missing => ∃ p k entries, e.path = p ++ [.key k] ∧ x.At p (.object entries) ∧
    k ∉ Keyed.keys entries
  | .unknownKey k => ∃ p id fields entries, e.path = p ++ [.key k] ∧
    x.At p (.object entries) ∧ k ∈ Keyed.keys entries ∧
    ComesTo S hooks t x p (.declared id) (.object entries) ∧
    S.shape (.declared id) = .record fields false ∧ ∀ f ∈ fields, f.key ≠ k
  | fault => ∃ u, x.At e.path u ∧ (Reports fault u ∨ KeyFails S hooks options t x e)

variable {S hooks options}

theorem Locates.of_reports {t : Ty} {x : Tree} {f : Fault} (h : Reports f x) :
    Locates S hooks options t x { fault := f } := by
  cases f with
  | missing | unknownKey => exact h.elim
  | _ => exact ⟨x, .here, .inl h⟩

-- What is located from a tree is located from one around it, where the loading comes to that tree.
theorem Locates.around {t t' : Ty} {x x' : Tree} {e : ConversionError} {step : List PathStep}
    (h : Locates S hooks options t x e) (hx : x'.At step x)
    (ht : ∀ p u y, ComesTo S hooks t x p u y → ComesTo S hooks t' x' (step ++ p) u y) :
    Locates S hooks options t' x' { e with path := step ++ e.path } := by
  have hkey : KeyFails S hooks options t x e →
      KeyFails S hooks options t' x' { e with path := step ++ e.path } := by
    intro ⟨p, kind, s, u, entries, k, hcomes, hh, hk, hp, hf⟩
    exact ⟨step ++ p, kind, s, u, entries, k, ht _ _ _ hcomes, hh, hk, by simp [hp], hf⟩
  obtain ⟨f, path, trail⟩ := e
  cases f with
  | missing =>
    have ⟨p, k, entries, hp, hat, hk⟩ := h
    exact ⟨step ++ p, k, entries, by simp_all, hx.append hat, hk⟩
  | unknownKey k =>
    have ⟨p, id, fields, entries, hp, hat, hk, hcomes, hs, hf⟩ := h
    exact ⟨step ++ p, id, fields, entries, by simp_all, hx.append hat, hk, ht _ _ _ hcomes, hs, hf⟩
  | _ =>
    have ⟨u, hat, hr⟩ := h
    exact ⟨u, hx.append hat, hr.imp_right hkey⟩

end TreeCodec
