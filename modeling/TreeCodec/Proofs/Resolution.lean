import TreeCodec.Procedure.Linker
import TreeCodec.Procedure.Meaning
import TreeCodec.Proofs.Lists

/-!
What the names in a procedure are resolved to where it links: which linked expression belongs to an
expression, and which linked procedure to a procedure.
-/
namespace TreeCodec

theorem Linker.exists_of_bind_eq_ok {ε α β : Type} {x : Except ε α} {f : α → Except ε β} {b : β}
    (h : (x >>= f) = .ok b) : ∃ a, x = .ok a ∧ f a = .ok b :=
  bind_eq_ok_iff.mp h

/-! ## Local names -/

namespace Linker

variable {L : Linker} {name : String}

theorem get?_of_binding {b : Binding} (h : L.binding name = .ok b) :
    Keyed.get? name L.locals = some b := by
  unfold binding at h
  split at h <;> simp_all

theorem typeOf?_of_type {t : Ty} (h : L.type name = .ok t) :
    Meaning.typeOf? L.locals name = some t := by
  have ⟨b, hb, h⟩ := exists_of_bind_eq_ok h
  unfold Meaning.typeOf?
  rw [get?_of_binding hb]
  cases b <;> cases h
  rfl

theorem get?_of_default {v : Value} (h : L.default name = .ok v) :
    Keyed.get? name L.locals = some (.default v) := by
  have ⟨b, hb, h⟩ := exists_of_bind_eq_ok h
  rw [get?_of_binding hb]
  cases b <;> cases h
  rfl

theorem viewOf?_of_helper {α : Type} {view : Ty → Except KindMismatch α} {t : Ty} {a : α}
    (h : L.helper name view = .ok (t, a)) : Meaning.viewOf? L.locals name view = some (t, a) := by
  have ⟨u, hu, h⟩ := exists_of_bind_eq_ok h
  cases hv : view u with
  | error e => simp [hv] at h
  | ok b =>
    rw [hv] at h
    cases h
    simp [Meaning.viewOf?, typeOf?_of_type hu, hv]

theorem viewOf?_of_unionHelper {n : Nat} {t : Ty} {variants : List Variant}
    (h : L.unionHelper name n = .ok (t, variants)) :
    Meaning.viewOf? L.locals name L.schema.variants = some (t, variants) ∧ variants.length = n := by
  have ⟨⟨u, vs⟩, hu, h⟩ := exists_of_bind_eq_ok h
  dsimp only at h
  split at h
  case isTrue hn =>
    cases h
    exact ⟨viewOf?_of_helper hu, hn⟩
  case isFalse => nomatch h

theorem get?_of_procedure_load {i : Nat} (h : L.procedure name .load = .ok i) :
    Keyed.get? name L.slots = some (.load i) := by
  unfold procedure at h
  split at h <;> simp_all

theorem get?_of_procedure_dump {i : Nat} (h : L.procedure name .dump = .ok i) :
    Keyed.get? name L.slots = some (.dump i) := by
  unfold procedure at h
  split at h <;> simp_all

theorem idxOf?_of_depth {scope : Scope} {arg : Operand} {up : Nat}
    (h : depth scope arg = .ok up) : scope.idxOf? arg.base = some up := by
  unfold depth at h
  split at h <;> simp_all

end Linker

/-! ## Sources -/

-- A source reads from the innermost binder of the variable of an operand.
inductive LoadSource.Resolves (scope : Scope) : Operand → LoadSource → Prop
  | var {x : String} {up : Nat} : scope.idxOf? x = some up → Resolves scope (.var x) (.var up)
  | key {x key : String} {up : Nat} :
    scope.idxOf? x = some up → Resolves scope (.key x key) (.key up key)
  | item {x : String} {i up : Nat} :
    scope.idxOf? x = some up → Resolves scope (.item x i) (.item up i)

theorem Linker.loadSource_resolves {scope : Scope} {arg : Operand} {s : LoadSource}
    (h : loadSource scope arg = .ok s) : s.Resolves scope arg := by
  have ⟨up, hup, h⟩ := exists_of_bind_eq_ok h
  have hup := idxOf?_of_depth hup
  cases arg with
  | var => cases h; exact .var hup
  | key => cases h; exact .key hup
  | item => cases h; exact .item hup
  | attr | element => nomatch h

-- The same for values. A field or an element is one that its owner has.
inductive DumpSource.Resolves (L : Linker) (scope : Scope) : Operand → DumpSource → Prop
  | var {x : String} {up : Nat} : scope.idxOf? x = some up → Resolves L scope (.var x) (.var up)
  | attr {x owner name : String} {i up : Nat} {t : Ty} {fields : List Field} {positional : Bool} :
    scope.idxOf? x = some up → Meaning.typeOf? L.locals owner = some t →
    L.schema.fields t = .ok (fields, positional) → i < fields.length →
    Resolves L scope (.attr x owner i name) (.attr up t i name)
  | element {x owner : String} {i up : Nat} {t : Ty} {elements : List Ty} :
    scope.idxOf? x = some up → Meaning.typeOf? L.locals owner = some t →
    L.schema.elements t = .ok elements → i < elements.length →
    Resolves L scope (.element x owner i) (.element up t i)

theorem Linker.dumpSource_resolves {L : Linker} {scope : Scope} {arg : Operand} {s : DumpSource}
    (h : L.dumpSource scope arg = .ok s) : s.Resolves L scope arg := by
  have ⟨up, hup, h⟩ := exists_of_bind_eq_ok h
  have hup := idxOf?_of_depth hup
  cases arg with
  | var => cases h; exact .var hup
  | key | item => nomatch h
  | attr =>
    have ⟨t, ht, h⟩ := exists_of_bind_eq_ok h
    split at h
    case h_1 hf =>
      split at h
      case isTrue hi => cases h; exact .attr hup (typeOf?_of_type ht) hf hi
      case isFalse => nomatch h
    case h_2 => nomatch h
  | element =>
    have ⟨t, ht, h⟩ := exists_of_bind_eq_ok h
    split at h
    case h_1 he =>
      split at h
      case isTrue hi => cases h; exact .element hup (typeOf?_of_type ht) he hi
      case isFalse => nomatch h
    case h_2 => nomatch h

/-! ## Expressions -/

-- A linked expression belongs to an expression that stands inside the binders of a scope.
mutual

inductive LoadLinked (L : Linker) : Scope → Expr → LoadExpr → Prop
  | scalar {scope : Scope} {helper : String} {arg : Operand} {s : LoadSource} {t : Ty}
      {k : ScalarTy} :
    s.Resolves scope arg → Keyed.get? helper L.locals = some (.type t) →
    L.schema.shape t = .scalar k → LoadLinked L scope (.leaf helper arg) (.scalar s k)
  | tree {scope : Scope} {helper : String} {arg : Operand} {s : LoadSource} {t : Ty} :
    s.Resolves scope arg → Keyed.get? helper L.locals = some (.type t) →
    L.schema.shape t = .dynamic → LoadLinked L scope (.leaf helper arg) (.tree s t)
  | hook {scope : Scope} {helper : String} {arg : Operand} {s : LoadSource} {h : LoadHook} :
    s.Resolves scope arg → Keyed.get? helper L.locals = some (.loadHook h) →
    LoadLinked L scope (.leaf helper arg) (.hook s h)
  | call {scope : Scope} {name : String} {arg : Operand} {s : LoadSource} {i : Nat} :
    s.Resolves scope arg → Keyed.get? name L.slots = some (.load i) →
    LoadLinked L scope (.call name arg) (.call s i)
  | optional {scope : Scope} {helper x : String} {arg : Operand} {e : Expr} {s : LoadSource}
      {t u : Ty} {le : LoadExpr} :
    s.Resolves scope arg → Meaning.viewOf? L.locals helper L.schema.option = some (t, u) →
    LoadLinked L (x :: scope) e le →
    LoadLinked L scope (.optional helper arg x e) (.optional s u le)
  | boxed {scope : Scope} {helper x : String} {arg : Operand} {e : Expr} {s : LoadSource}
      {t u : Ty} {le : LoadExpr} :
    s.Resolves scope arg → Meaning.viewOf? L.locals helper L.schema.box = some (t, u) →
    LoadLinked L (x :: scope) e le → LoadLinked L scope (.boxed helper arg x e) (.boxed s u le)
  | list {scope : Scope} {helper x : String} {arg : Operand} {e : Expr} {s : LoadSource}
      {t u : Ty} {le : LoadExpr} :
    s.Resolves scope arg → Meaning.viewOf? L.locals helper L.schema.item = some (t, u) →
    LoadLinked L (x :: scope) e le → LoadLinked L scope (.list helper arg x e) (.list s t u le)
  | map {scope : Scope} {helper x y : String} {arg : Operand} {k e : Expr} {s : LoadSource}
      {t u v : Ty} {kind : MapKind} {lk le : LoadExpr} :
    s.Resolves scope arg →
    Meaning.viewOf? L.locals helper L.schema.entry = some (t, kind, u, v) →
    LoadLinked L (x :: scope) k lk → LoadLinked L (y :: scope) e le →
    LoadLinked L scope (.map helper arg x k y e) (.map s t kind u v lk le)
  | union {scope : Scope} {helper x : String} {arg : Operand} {es : List Expr} {s : LoadSource}
      {t : Ty} {variants : List Variant} {les : List LoadExpr} :
    s.Resolves scope arg →
    Meaning.viewOf? L.locals helper L.schema.variants = some (t, variants) →
    variants.length = es.length → LoadAllLinked L (x :: scope) es les →
    LoadLinked L scope (.union helper arg x es) (.union s t variants les)

inductive LoadAllLinked (L : Linker) : Scope → List Expr → List LoadExpr → Prop
  | nil {scope : Scope} : LoadAllLinked L scope [] []
  | cons {scope : Scope} {e : Expr} {le : LoadExpr} {es : List Expr} {les : List LoadExpr} :
    LoadLinked L scope e le → LoadAllLinked L scope es les →
    LoadAllLinked L scope (e :: es) (le :: les)

end

mutual

inductive DumpLinked (L : Linker) : Scope → Expr → DumpExpr → Prop
  | scalar {scope : Scope} {helper : String} {arg : Operand} {s : DumpSource} {t : Ty}
      {k : ScalarTy} :
    s.Resolves L scope arg → Keyed.get? helper L.locals = some (.type t) →
    L.schema.shape t = .scalar k → DumpLinked L scope (.leaf helper arg) (.scalar s k)
  | tree {scope : Scope} {helper : String} {arg : Operand} {s : DumpSource} {t : Ty} :
    s.Resolves L scope arg → Keyed.get? helper L.locals = some (.type t) →
    L.schema.shape t = .dynamic → DumpLinked L scope (.leaf helper arg) (.tree s t)
  | hook {scope : Scope} {helper : String} {arg : Operand} {s : DumpSource} {h : DumpHook} :
    s.Resolves L scope arg → Keyed.get? helper L.locals = some (.dumpHook h) →
    DumpLinked L scope (.leaf helper arg) (.hook s h)
  | call {scope : Scope} {name : String} {arg : Operand} {s : DumpSource} {i : Nat} :
    s.Resolves L scope arg → Keyed.get? name L.slots = some (.dump i) →
    DumpLinked L scope (.call name arg) (.call s i)
  | optional {scope : Scope} {helper x : String} {arg : Operand} {e : Expr} {s : DumpSource}
      {t u : Ty} {de : DumpExpr} :
    s.Resolves L scope arg → Meaning.viewOf? L.locals helper L.schema.option = some (t, u) →
    DumpLinked L (x :: scope) e de →
    DumpLinked L scope (.optional helper arg x e) (.optional s t de)
  | boxed {scope : Scope} {helper x : String} {arg : Operand} {e : Expr} {s : DumpSource}
      {t u : Ty} {de : DumpExpr} :
    s.Resolves L scope arg → Meaning.viewOf? L.locals helper L.schema.box = some (t, u) →
    DumpLinked L (x :: scope) e de → DumpLinked L scope (.boxed helper arg x e) (.boxed s t de)
  | list {scope : Scope} {helper x : String} {arg : Operand} {e : Expr} {s : DumpSource}
      {t u : Ty} {de : DumpExpr} :
    s.Resolves L scope arg → Meaning.viewOf? L.locals helper L.schema.item = some (t, u) →
    DumpLinked L (x :: scope) e de → DumpLinked L scope (.list helper arg x e) (.list s t de)
  | map {scope : Scope} {helper x y : String} {arg : Operand} {k e : Expr} {s : DumpSource}
      {t u v : Ty} {kind : MapKind} {dk de : DumpExpr} :
    s.Resolves L scope arg →
    Meaning.viewOf? L.locals helper L.schema.entry = some (t, kind, u, v) →
    DumpLinked L (x :: scope) k dk → DumpLinked L (y :: scope) e de →
    DumpLinked L scope (.map helper arg x k y e) (.map s t kind dk de)
  | union {scope : Scope} {helper x : String} {arg : Operand} {es : List Expr} {s : DumpSource}
      {t : Ty} {variants : List Variant} {des : List DumpExpr} :
    s.Resolves L scope arg →
    Meaning.viewOf? L.locals helper L.schema.variants = some (t, variants) →
    variants.length = es.length → DumpAllLinked L (x :: scope) es des →
    DumpLinked L scope (.union helper arg x es) (.union s t des)

inductive DumpAllLinked (L : Linker) : Scope → List Expr → List DumpExpr → Prop
  | nil {scope : Scope} : DumpAllLinked L scope [] []
  | cons {scope : Scope} {e : Expr} {de : DumpExpr} {es : List Expr} {des : List DumpExpr} :
    DumpLinked L scope e de → DumpAllLinked L scope es des →
    DumpAllLinked L scope (e :: es) (de :: des)

end

namespace Linker

variable {L : Linker}

mutual

theorem loadExpr_linked : ∀ (e : Expr) {scope : Scope} {le : LoadExpr},
    L.loadExpr e scope = .ok le → LoadLinked L scope e le
  | .leaf helper arg, scope, le, h => by
    simp only [loadExpr] at h
    have ⟨s, hs, h⟩ := exists_of_bind_eq_ok h
    have ⟨b, hb, h⟩ := exists_of_bind_eq_ok h
    have hs := loadSource_resolves hs
    have hb := get?_of_binding hb
    cases b with
    | type t =>
      dsimp only at h
      split at h
      case h_1 hk => cases h; exact .scalar hs hb hk
      case h_2 hk => cases h; exact .tree hs hb hk
      case h_3 => nomatch h
    | loadHook => cases h; exact .hook hs hb
    | dumpHook | default => nomatch h
  | .call _ _, _, _, h => by
    simp only [loadExpr] at h
    have ⟨_, hi, h⟩ := exists_of_bind_eq_ok h
    have ⟨_, hs, h⟩ := exists_of_bind_eq_ok h
    cases h
    exact .call (loadSource_resolves hs) (get?_of_procedure_load hi)
  | .optional _ _ _ e, _, _, h => by
    simp only [loadExpr] at h
    have ⟨_, ht, h⟩ := exists_of_bind_eq_ok h
    have ⟨_, hs, h⟩ := exists_of_bind_eq_ok h
    have ⟨_, he, h⟩ := exists_of_bind_eq_ok h
    cases h
    exact .optional (loadSource_resolves hs) (viewOf?_of_helper ht) (loadExpr_linked e he)
  | .boxed _ _ _ e, _, _, h => by
    simp only [loadExpr] at h
    have ⟨_, ht, h⟩ := exists_of_bind_eq_ok h
    have ⟨_, hs, h⟩ := exists_of_bind_eq_ok h
    have ⟨_, he, h⟩ := exists_of_bind_eq_ok h
    cases h
    exact .boxed (loadSource_resolves hs) (viewOf?_of_helper ht) (loadExpr_linked e he)
  | .list _ _ _ e, _, _, h => by
    simp only [loadExpr] at h
    have ⟨_, ht, h⟩ := exists_of_bind_eq_ok h
    have ⟨_, hs, h⟩ := exists_of_bind_eq_ok h
    have ⟨_, he, h⟩ := exists_of_bind_eq_ok h
    cases h
    exact .list (loadSource_resolves hs) (viewOf?_of_helper ht) (loadExpr_linked e he)
  | .map _ _ _ k _ e, _, _, h => by
    simp only [loadExpr] at h
    have ⟨_, ht, h⟩ := exists_of_bind_eq_ok h
    have ⟨_, hs, h⟩ := exists_of_bind_eq_ok h
    have ⟨_, hk, h⟩ := exists_of_bind_eq_ok h
    have ⟨_, he, h⟩ := exists_of_bind_eq_ok h
    cases h
    exact .map (loadSource_resolves hs) (viewOf?_of_helper ht) (loadExpr_linked k hk)
      (loadExpr_linked e he)
  | .union _ _ _ es, _, _, h => by
    simp only [loadExpr] at h
    have ⟨_, ht, h⟩ := exists_of_bind_eq_ok h
    have ⟨_, hs, h⟩ := exists_of_bind_eq_ok h
    have ⟨_, hes, h⟩ := exists_of_bind_eq_ok h
    cases h
    have ⟨ht, hn⟩ := viewOf?_of_unionHelper ht
    exact .union (loadSource_resolves hs) ht hn (loadExprs_linked es hes)

theorem loadExprs_linked : ∀ (es : List Expr) {scope : Scope} {les : List LoadExpr},
    L.loadExprs es scope = .ok les → LoadAllLinked L scope es les
  | [], _, _, h => by
    simp only [loadExprs] at h
    cases h
    exact .nil
  | e :: es, _, _, h => by
    simp only [loadExprs] at h
    have ⟨_, he, h⟩ := exists_of_bind_eq_ok h
    have ⟨_, hes, h⟩ := exists_of_bind_eq_ok h
    cases h
    exact .cons (loadExpr_linked e he) (loadExprs_linked es hes)

end

mutual

theorem dumpExpr_linked : ∀ (e : Expr) {scope : Scope} {de : DumpExpr},
    L.dumpExpr e scope = .ok de → DumpLinked L scope e de
  | .leaf helper arg, scope, de, h => by
    simp only [dumpExpr] at h
    have ⟨s, hs, h⟩ := exists_of_bind_eq_ok h
    have ⟨b, hb, h⟩ := exists_of_bind_eq_ok h
    have hs := dumpSource_resolves hs
    have hb := get?_of_binding hb
    cases b with
    | type t =>
      dsimp only at h
      split at h
      case h_1 hk => cases h; exact .scalar hs hb hk
      case h_2 hk => cases h; exact .tree hs hb hk
      case h_3 => nomatch h
    | dumpHook => cases h; exact .hook hs hb
    | loadHook | default => nomatch h
  | .call _ _, _, _, h => by
    simp only [dumpExpr] at h
    have ⟨_, hi, h⟩ := exists_of_bind_eq_ok h
    have ⟨_, hs, h⟩ := exists_of_bind_eq_ok h
    cases h
    exact .call (dumpSource_resolves hs) (get?_of_procedure_dump hi)
  | .optional _ _ _ e, _, _, h => by
    simp only [dumpExpr] at h
    have ⟨_, ht, h⟩ := exists_of_bind_eq_ok h
    have ⟨_, hs, h⟩ := exists_of_bind_eq_ok h
    have ⟨_, he, h⟩ := exists_of_bind_eq_ok h
    cases h
    exact .optional (dumpSource_resolves hs) (viewOf?_of_helper ht) (dumpExpr_linked e he)
  | .boxed _ _ _ e, _, _, h => by
    simp only [dumpExpr] at h
    have ⟨_, ht, h⟩ := exists_of_bind_eq_ok h
    have ⟨_, hs, h⟩ := exists_of_bind_eq_ok h
    have ⟨_, he, h⟩ := exists_of_bind_eq_ok h
    cases h
    exact .boxed (dumpSource_resolves hs) (viewOf?_of_helper ht) (dumpExpr_linked e he)
  | .list _ _ _ e, _, _, h => by
    simp only [dumpExpr] at h
    have ⟨_, ht, h⟩ := exists_of_bind_eq_ok h
    have ⟨_, hs, h⟩ := exists_of_bind_eq_ok h
    have ⟨_, he, h⟩ := exists_of_bind_eq_ok h
    cases h
    exact .list (dumpSource_resolves hs) (viewOf?_of_helper ht) (dumpExpr_linked e he)
  | .map _ _ _ k _ e, _, _, h => by
    simp only [dumpExpr] at h
    have ⟨_, ht, h⟩ := exists_of_bind_eq_ok h
    have ⟨_, hs, h⟩ := exists_of_bind_eq_ok h
    have ⟨_, hk, h⟩ := exists_of_bind_eq_ok h
    have ⟨_, he, h⟩ := exists_of_bind_eq_ok h
    cases h
    exact .map (dumpSource_resolves hs) (viewOf?_of_helper ht) (dumpExpr_linked k hk)
      (dumpExpr_linked e he)
  | .union _ _ _ es, _, _, h => by
    simp only [dumpExpr] at h
    have ⟨_, ht, h⟩ := exists_of_bind_eq_ok h
    have ⟨_, hs, h⟩ := exists_of_bind_eq_ok h
    have ⟨_, hes, h⟩ := exists_of_bind_eq_ok h
    cases h
    have ⟨ht, hn⟩ := viewOf?_of_unionHelper ht
    exact .union (dumpSource_resolves hs) ht hn (dumpExprs_linked es hes)

theorem dumpExprs_linked : ∀ (es : List Expr) {scope : Scope} {des : List DumpExpr},
    L.dumpExprs es scope = .ok des → DumpAllLinked L scope es des
  | [], _, _, h => by
    simp only [dumpExprs] at h
    cases h
    exact .nil
  | e :: es, _, _, h => by
    simp only [dumpExprs] at h
    have ⟨_, he, h⟩ := exists_of_bind_eq_ok h
    have ⟨_, hes, h⟩ := exists_of_bind_eq_ok h
    cases h
    exact .cons (dumpExpr_linked e he) (dumpExprs_linked es hes)

end

end Linker
end TreeCodec
