import TreeCodec.Proofs.Generated
import TreeCodec.Proofs.KeyOrder
import TreeCodec.Proofs.LoaderParts
import TreeCodec.Proofs.RoundTrip

/-!
A compiled loader does not depend on the order of the entries of objects, if no type in the graph of
its root shows it.
-/
namespace TreeCodec

/-! ## Types -/

namespace Schema

variable (S : Schema)

-- Whether values of a type do not show the order of the entries of objects, if those of the types
-- within it do not.
def orderless (t : Ty) : Bool :=
  match S.shape t with
  | .dynamic => false
  | .map _ (.scalar s) _ => s.isText
  | .map .. => false
  | _ => true

variable {S}

theorem scalar_of_orderless {t : Ty} (hl : S.IsLeaf t) (h : S.orderless t) :
    ∃ s : ScalarTy, t = .scalar s := by
  rcases hl with ⟨s, hs⟩ | hs
  · exact ⟨s, eq_scalar_of_shape hs⟩
  · simp [orderless, hs] at h

theorem key_of_orderless {kind : MapKind} {t u : Ty} (h : S.orderless (.map kind t u)) :
    ∃ s : ScalarTy, s.isText ∧ t = .scalar s := by
  cases t <;> simp [orderless, shape] at h
  case scalar s => exact ⟨s, h, rfl⟩

-- No other scalars are loaded under the names of texts and characters.
theorem eq_of_leafName {s s' : ScalarTy} (hs : s.isText)
    (h : S.leafName (.scalar s) = S.leafName (.scalar s')) : s = s' := by
  have h : Text.identifier s.names.ident = Text.identifier s'.names.ident := by
    simpa [leafName, ident, names] using h
  cases s <;> simp only [ScalarTy.isText, Bool.false_eq_true] at hs <;> cases s' with
  | int i => exact absurd h (by cases i <;> decide)
  | float f => exact absurd h (by cases f <;> decide)
  | _ => first | rfl | exact absurd h (by decide)

end Schema

/-! ## Helpers -/

section Leaves

variable {s : Settings} {root : Ty} {name? : GuardKey → Option String}

-- What stands under the word of leaves is applied to a leaf that is met from a root.
def LeafUse (s : Settings) (root : Ty) (use : String × Binding) : Prop :=
  HelperKind.leaf.Names use.1 →
    ∃ t, Reached s root t ∧ s.schema.IsLeaf t ∧ use = (s.schema.leafName t, .type t)

theorem leafUse_of_ne {k : HelperKind} {use : String × Binding} (hk : k ≠ .leaf)
    (hn : k.Names use.1) : LeafUse s root use :=
  fun hl => absurd (hn.unique hl) hk

theorem ExprFor.leafUse {t : Ty} {arg : Operand} {e : Expr} (h : ExprFor s name? t arg e)
    (ht : Reached s root t) : ∀ use ∈ e.uses s t, LeafUse s root use := by
  induction h with
  | hook hh =>
    simp only [Expr.uses, hh, List.forall_mem_singleton]
    exact leafUse_of_ne (k := .hook) (by decide) ⟨_, rfl⟩
  | leaf hh hl =>
    simp only [Expr.uses, hh, List.forall_mem_singleton]
    exact fun _ => ⟨_, ht, hl, rfl⟩
  | call => exact List.forall_mem_nil _
  | optional hh _ ih =>
    simp only [Expr.uses, Schema.shape, List.forall_mem_cons]
    exact ⟨leafUse_of_ne (k := .optional) (by decide) ⟨_, rfl⟩,
      ih <| ht.within hh (List.mem_singleton_self _)⟩
  | boxed hh _ ih =>
    simp only [Expr.uses, Schema.shape, List.forall_mem_cons]
    exact ⟨leafUse_of_ne (k := .boxed) (by decide) ⟨_, rfl⟩,
      ih <| ht.within hh (List.mem_singleton_self _)⟩
  | list hh _ ih =>
    simp only [Expr.uses, Schema.shape, List.forall_mem_cons]
    exact ⟨leafUse_of_ne (k := .list) (by decide) ⟨_, rfl⟩,
      ih <| ht.within hh (List.mem_singleton_self _)⟩
  | map hh _ _ ihk ihv =>
    simp only [Expr.uses, Schema.shape, List.forall_mem_cons, List.forall_mem_append]
    exact ⟨leafUse_of_ne (k := .map) (by decide) ⟨_, rfl⟩,
      ihk <| ht.within hh (by simp [Schema.within, Schema.shape]),
      ihv <| ht.within hh (by simp [Schema.within, Schema.shape])⟩

theorem Alternatives.leafUse {x : String} {variants : List Variant} {es : List Expr}
    (h : Alternatives s name? x variants es) (hv : ∀ v ∈ variants, Reached s root v.ty) :
    ∀ use ∈ Expr.usesAll s es (variants.map Variant.ty), LeafUse s root use := by
  induction h with
  | nil => nofun
  | cons he _ ih =>
    have ⟨ht, hv⟩ := List.forall_mem_cons.mp hv
    simp only [List.map_cons, Expr.usesAll, List.forall_mem_append]
    exact ⟨he.leafUse ht, ih hv⟩

theorem IsTarget.reached_value {key : GuardKey} {t : Ty} (h : IsTarget s root key)
    (ht : .value t ∈ key.places s) : Reached s root t := by
  cases h.places ht with
  | value ht => exact ht

theorem IsTarget.reached_variant {t : Ty} {variants : List Variant}
    (h : IsTarget s root (.origin t)) (hh : s.hook? t = none)
    (hs : s.schema.shape t = .union variants) : ∀ v ∈ variants, Reached s root v.ty := by
  intro v hv
  refine h.reached_value ?_
  rw [GuardKey.places_union hh hs]
  exact List.mem_map.mpr ⟨v, hv, rfl⟩

theorem BodyExpr.leafUse {key : GuardKey} {e : Expr} {uses : List (String × Binding)}
    (h : BodyExpr s name? key e uses) (hk : IsTarget s root key) :
    ∀ use ∈ uses, LeafUse s root use := by
  cases h with
  | value ht he => exact he.leafUse <| hk.reached_value ht
  | slot => nofun
  | union hkey hh hs ha =>
    subst hkey
    exact List.forall_mem_cons.mpr ⟨leafUse_of_ne (k := .union) nofun ⟨_, rfl⟩,
      ha.leafUse <| hk.reached_variant hh hs⟩

theorem BodyFor.leafUse {key : GuardKey} {body : List Stmt} (h : BodyFor s name? key body)
    (hk : IsTarget s root key) : ∀ use ∈ bodyUses s key.subject body, LeafUse s root use := by
  intro use hu
  rcases h.parts.uses use hu with ⟨_, _, he, hu⟩ | ⟨_, _, rfl⟩
  · exact he.leafUse hk use hu
  · exact leafUse_of_ne (k := .default) nofun ⟨_, rfl⟩

end Leaves

-- What is met from a root shows no order of entries, and no hook converts it.
def Settings.Orderless (s : Settings) (root : Ty) : Prop :=
  ∀ t, Reached s root t → s.hook? t = none ∧ s.schema.orderless t

-- What is bound to the name of a scalar is a scalar of that name.
def ScalarLeaves (S : Schema) (locals : Locals) : Prop :=
  ∀ (k : ScalarTy) b, Keyed.get? (S.leafName (.scalar k)) locals = some b →
    ∃ k', b = .type (.scalar k') ∧ S.leafName (.scalar k) = S.leafName (.scalar k')

section Expressions

variable {s : Settings} {root : Ty} {name? : GuardKey → Option String} {key : GuardKey}
variable (ho : s.Orderless root)
include ho

theorem ProcedureFor.scalarLeaves {p : Procedure} (h : ProcedureFor s name? key p)
    (hk : IsTarget s root key) : ScalarLeaves s.schema p.locals := by
  intro k b hget
  rw [h.locals] at hget
  rcases Locals.mem_of_get?_bindAll hget with hm | hcls
  case inl =>
    have ⟨t, ht, hl, he⟩ := h.body.leafUse hk _ hm ⟨_, rfl⟩
    obtain ⟨k', rfl⟩ := Schema.scalar_of_orderless hl (ho t ht).right
    exact ⟨k', (Prod.mk.inj he).right, (Prod.mk.inj he).left⟩
  case inr =>
    have hname : s.schema.leafName (.scalar k) = "cls" := by
      by_contra hne
      simp [Keyed.get?, Ne.symm hne] at hcls
    have hunder : '_' ∈ (s.schema.leafName (.scalar k)).toList := by simp [Schema.leafName]
    exact absurd (hname ▸ hunder) (by decide)

variable {L : Linker} {scope : Scope} {e : Expr} {le : LoadExpr} {t : Ty}
variable (hb : ScalarLeaves s.schema L.locals)
include hb

omit ho in
-- What is read by the helper of a scalar is read as one.
theorem LoadLinked.scalar_of_leaf {k : ScalarTy} {arg : Operand}
    (h : LoadLinked L scope (.leaf (s.schema.leafName (.scalar k)) arg) le) :
    ∃ source k', source.Resolves scope arg ∧ le = .scalar source k' ∧
      s.schema.leafName (.scalar k) = s.schema.leafName (.scalar k') := by
  cases h with
  | scalar hs hget hshape =>
    obtain ⟨k', he, hname⟩ := hb k _ hget
    cases he
    cases hshape
    exact ⟨_, _, hs, rfl, hname⟩
  | tree _ hget hshape =>
    obtain ⟨k', he, _⟩ := hb k _ hget
    cases he
    nomatch hshape
  | hook _ hget =>
    have ⟨_, he, _⟩ := hb k _ hget
    nomatch he

theorem ExprFor.readsText {k : ScalarTy} {x : String} (h : ExprFor s name? (.scalar k) (.var x) e)
    (ht : Reached s root (.scalar k)) (hk : k.isText) (hl : LoadLinked L (x :: scope) e le) :
    le.ReadsText := by
  cases h with
  | hook hh => simp [(ho _ ht).left] at hh
  | call _ hp => exact absurd hp id
  | leaf =>
    obtain ⟨_, k', hs, rfl, hname⟩ := hl.scalar_of_leaf hb
    obtain rfl := Schema.eq_of_leafName hk hname
    cases hs with
    | var hup =>
      obtain rfl : 0 = _ := by simpa [List.idxOf?_cons] using hup
      exact ⟨k, hk, rfl⟩

theorem ExprFor.orderless {arg : Operand} (h : ExprFor s name? t arg e) (ht : Reached s root t)
    (hl : LoadLinked L scope e le) : le.Orderless := by
  induction h generalizing scope le with
  | hook hh => simp [(ho _ ht).left] at hh
  | leaf _ hleaf =>
    obtain ⟨k, rfl⟩ := Schema.scalar_of_orderless hleaf (ho _ ht).right
    obtain ⟨_, _, _, rfl, _⟩ := hl.scalar_of_leaf hb
    trivial
  | call =>
    cases hl with
    | call => trivial
  | optional hh _ ih =>
    cases hl with
    | optional _ _ hl => exact (ih (ht.within hh (List.mem_singleton_self _)) hl :)
  | boxed hh _ ih =>
    cases hl with
    | boxed _ _ hl => exact (ih (ht.within hh (List.mem_singleton_self _)) hl :)
  | list hh _ ih =>
    cases hl with
    | list _ _ hl => exact (ih (ht.within hh (List.mem_singleton_self _)) hl :)
  | map hh hk _ _ ih =>
    obtain ⟨k, hkey, rfl⟩ := Schema.key_of_orderless (ho _ ht).right
    cases hl with
    | map _ _ hlk hlv =>
      exact ⟨hk.readsText ho hb (ht.within hh (by simp [Schema.within, Schema.shape])) hkey hlk,
        ih (ht.within hh (by simp [Schema.within, Schema.shape])) hlv⟩

theorem Alternatives.orderless {x : String} {variants : List Variant} {es : List Expr}
    {les : List LoadExpr} (h : Alternatives s name? x variants es)
    (hv : ∀ v ∈ variants, Reached s root v.ty) (hl : LoadAllLinked L (x :: scope) es les) :
    LoadExpr.AllOrderless les := by
  induction h generalizing les with
  | nil =>
    cases hl
    trivial
  | cons he _ ih =>
    have ⟨ht, hv⟩ := List.forall_mem_cons.mp hv
    cases hl with
    | cons hle hles => exact ⟨he.orderless ho hb ht hle, ih hv hles⟩

theorem BodyExpr.orderless {uses : List (String × Binding)} (h : BodyExpr s name? key e uses)
    (hk : IsTarget s root key) (hl : LoadLinked L scope e le) : le.Orderless := by
  cases h with
  | value ht he => exact he.orderless ho hb (hk.reached_value ht) hl
  | slot =>
    cases hl with
    | call => trivial
  | union hkey hh hs ha =>
    subst hkey
    cases hl with
    | union _ _ _ hl => exact ha.orderless ho hb (hk.reached_variant hh hs) hl

end Expressions

/-! ## Loaders -/

-- A map from characters to what is a number or a map of texts.
def shelf : Schema where
  declarations := [
    ("Shelf", {
      names := .qualified "app" "Shelf"
      definition := .record [
        { name := "label", key := "label", ty := .scalar .string, default := some (.text "") },
        { name := "items", key := "items",
          ty := .map .unordered (.scalar .char) (.declared "Item") }] false }),
    ("Item", {
      names := .qualified "app" "Item"
      definition := .union [
        { name := "Count", ty := .scalar (.int .u8) },
        { name := "Tags", ty := .map .ordered (.scalar .string) (.scalar .bool) }] })]

def stacked : Tree :=
  .object [("label", .text "top"),
    ("items", .object [
      ("a", .number (.int 3)), ("b", .object [("x", .bool true), ("w", .bool false)])])]

def restacked : Tree :=
  .object [("items", .object [("b", .object [("w", .bool false), ("x", .bool true)]),
    ("a", .number (.int 3))]), ("label", .text "top")]

theorem reordered_stacked : stacked.Reordered restacked := by
  have htags : Tree.Reordered (.object [("x", .bool true), ("w", .bool false)])
      (.object [("w", .bool false), ("x", .bool true)]) :=
    .object (by decide) (.swap ..) rfl (.cons (.bool _) (.cons (.bool _) .nil))
  have hitems : Tree.Reordered
      (.object [("a", .number (.int 3)), ("b", .object [("x", .bool true), ("w", .bool false)])])
      (.object [("b", .object [("w", .bool false), ("x", .bool true)]), ("a", .number (.int 3))]) :=
    .object (by decide) (.swap ..) rfl (.cons htags (.cons (.number _) .nil))
  exact .object (by decide) (.swap ..) rfl (.cons hitems (.cons (.text _) .nil))

-- Trees that differ in the order of entries give one value, or none of them gives a value.
theorem load_reordered {S : Schema} {options : Options} {hooks : Hooks} {root : Ty} {l : Loader}
    (hh : ∀ t, S.Contains root t → hooks.load? t = none)
    (ho : ∀ t, S.Contains root t → S.orderless t)
    (hl : (compileLoader S options hooks root).result = .ok l) {t u : Tree} (h : t.Reordered u)
    (ht : (l.load S t).Finished) (hu : (l.load S u).Finished) :
    (∃ v w, (l.load S t).outcome = .done v ∧ (l.load S u).outcome = .done w ∧ v.Same w) ∨
      ∃ e f, (l.load S t).outcome = .failed e ∧ (l.load S u).outcome = .failed f := by
  have horder : Settings.Orderless ⟨S, .load, hooks, options⟩ root := by
    intro t ht
    exact ⟨(Settings.load?_eq_none_iff rfl).mp (hh t ht.contains), ho t ht.contains⟩
  have hall : ∀ p ∈ l.unit.loads, p.All LoadExpr.Orderless :=
    compileLoader_all hl fun hfor hk _ _ he _ _ hle =>
      he.orderless horder (hfor.scalarLeaves horder hk) hk hle
  have hagree : (l.load S t).Agrees Value.Same (l.load S u) :=
    CompiledUnit.load_agrees hall _ (.some h) none
  unfold Run.Finished at ht hu
  unfold Run.Agrees at hagree
  generalize (l.load S t).outcome = o at ht hagree
  generalize (l.load S u).outcome = o' at hu hagree
  cases hagree with
  | done hvw => exact .inl ⟨_, _, rfl, rfl, hvw⟩
  | failed e f => exact .inr ⟨e, f, rfl, rfl⟩
  | left => exact absurd rfl ht
  | right => exact absurd rfl hu

theorem load_reordered_shelf :
    ∃ l, (compileLoader shelf {} {} (.declared "Shelf")).result = .ok l ∧
      ((∃ v w, (l.load shelf stacked).outcome = .done v ∧
          (l.load shelf restacked).outcome = .done w ∧ v.Same w) ∨
        ∃ e f, (l.load shelf stacked).outcome = .failed e ∧
          (l.load shelf restacked).outcome = .failed f) := by
  have hrun : ((compileLoader shelf {} {} (.declared "Shelf")).result.map fun l =>
      decide ((l.load shelf stacked).outcome ≠ .unfinished ∧
        (l.load shelf restacked).outcome ≠ .unfinished)).toOption = some true := by
    decide +kernel
  have ⟨l, hl⟩ := Compiled.exists_ok (x := compileLoader shelf {} {} (.declared "Shelf"))
    (by decide +kernel)
  rw [hl] at hrun
  have ⟨ht, hu⟩ := of_decide_eq_true <| Option.some.inj hrun
  exact ⟨l, hl, load_reordered (fun _ _ => rfl) (Schema.forall_contains (by decide +kernel)) hl
    reordered_stacked ht hu⟩

end TreeCodec
