import TreeCodec.Proofs.DumpErrorPath
import TreeCodec.Proofs.Generated
import TreeCodec.Proofs.Pruned
import TreeCodec.Proofs.TargetSlot
import TreeCodec.Proofs.UnknownKeys

/-!
Dumpers that leave out null fields against dumpers that write them.

Both are compiled to the same procedures, but for what is put under the keys of records. A procedure
hands its value on unchanged at most once, from a slot to the type of it, and every other call is on
a part of the value. So the runs can be followed side by side to their ends.
-/
namespace TreeCodec

/-! ## Expressions -/

-- Calls on values that are smaller than `n` end alike.
def CallsPrune (s : Settings) (name? : GuardKey → Option String)
    (callee callee' : String → Dump.Rule) (n : Nat) : Prop :=
  ∀ key name, name? key = some name → ∀ w : Value, w.size < n →
    Dump.Prunes s.schema s.hooks key.subject (callee name) (callee' name) w

-- What a value of a type is converted by ends alike: the procedure of the type, if there is one, on
-- the value itself, and others on smaller values.
structure ConvertsAlike (s : Settings) (name? : GuardKey → Option String)
    (callee callee' : String → Dump.Rule) (t : Ty) (v : Value) : Prop where
  self  : s.hook? t = none → s.schema.HasProcedure t → ∀ name, name? (.origin t) = some name →
    Dump.Prunes s.schema s.hooks t (callee name) (callee' name) v
  parts : CallsPrune s name? callee callee' v.size

theorem Meaning.viewOf?_eq {α : Type} {locals : Locals} {name : String} {t : Ty} {a : α}
    (view : Ty → Except KindMismatch α) (h : Keyed.get? name locals = some (.type t))
    (hv : view t = .ok a) : viewOf? locals name view = some (t, a) := by
  simp [viewOf?, typeOf?, h, hv]

section Expressions

variable {s : Settings} {name? : GuardKey → Option String} {locals : Locals}
  {callee callee' : String → Dump.Rule} {t : Ty} {v : Value} {n : Nat}

theorem CallsPrune.mono {m : Nat} (h : CallsPrune s name? callee callee' n) (hm : m ≤ n) :
    CallsPrune s name? callee callee' m :=
  fun key name hn w hw => h key name hn w (Nat.lt_of_lt_of_le hw hm)

theorem CallsPrune.convertsAlike (h : CallsPrune s name? callee callee' n) (hv : v.size < n)
    (t : Ty) :
    ConvertsAlike s name? callee callee' t v where
  self  := fun _ _ name hn => h (.origin t) name hn v hv
  parts := h.mono (Nat.le_of_lt hv)

-- An expression feeds what its operand reads to one of two rules, which convert alike.
def FeedsAlike (s : Settings) (name? : GuardKey → Option String) (locals : Locals)
    (callee callee' : String → Dump.Rule) (t : Ty) (arg : Operand) (e : Expr)
    (env : Meaning.Env Value) : Prop :=
  ∃ r r' : Dump.Rule,
    (∀ v, ConvertsAlike s name? callee callee' t v → Dump.Prunes s.schema s.hooks t r r' v) ∧
    Meaning.dumpExpr s.schema locals callee e env = Meaning.feedValue s.schema locals env arg r ∧
    Meaning.dumpExpr s.schema locals callee' e env = Meaning.feedValue s.schema locals env arg r'

theorem FeedsAlike.prunes {x : String} {e : Expr} {env : Meaning.Env Value}
    (h : FeedsAlike s name? locals callee callee' t (.var x) e ((x, v) :: env))
    (hv : ConvertsAlike s name? callee callee' t v) :
    (Meaning.dumpExpr s.schema locals callee e ((x, v) :: env)).EndsAlike
      (Pruned s.schema s.hooks t v)
      (Meaning.dumpExpr s.schema locals callee' e ((x, v) :: env)) := by
  obtain ⟨r, r', hr, he, he'⟩ := h
  rw [he, he', Meaning.feedValue_var, Meaning.feedValue_var]
  exact hr v hv

variable (hd : s.direction = .dump)
include hd

theorem ExprFor.feedsAlike {arg : Operand} {e : Expr} (h : ExprFor s name? t arg e)
    (hb : Suited s locals (e.uses s t)) (env : Meaning.Env Value) :
    FeedsAlike s name? locals callee callee' t arg e env := by
  have hnone {t : Ty} (hh : s.hook? t = none) : s.hooks.dump? t = none :=
    (Settings.dump?_eq_none_iff hd).mpr hh
  induction h generalizing env with
  | @hook t _ _ hh =>
    obtain ⟨b, hget, hfit⟩ := hb _ (List.mem_singleton_self _) .hook ⟨_, rfl⟩
    have ⟨_, ht, _⟩ := Settings.dump?_of_hook? hd hh
    cases hfit with
    | hook hu =>
      obtain ⟨f, hf, rfl⟩ := Settings.dump?_of_hook? hd hu
      refine ⟨_, _, fun v _ => Dump.hook_prunes (Option.isSome_of_eq_some ht) hf, ?_, ?_⟩
      all_goals simp only [Meaning.dumpExpr, Meaning.dumpLeaf, hget]
  | @leaf t _ hh hl =>
    obtain ⟨b, hget, hfit⟩ := hb _ (List.mem_singleton_self _) .leaf ⟨_, rfl⟩
    cases hfit with
    | @leaf u hu =>
      rcases hu with ⟨k, hk⟩ | hk
      · refine ⟨_, _, fun v _ => Dump.scalar_prunes (hnone hh) hl k, ?_, ?_⟩
        all_goals simp only [Meaning.dumpExpr, Meaning.dumpLeaf, hget, hk]
      · refine ⟨_, _, fun v _ => Dump.tree_prunes (hnone hh) hl u, ?_, ?_⟩
        all_goals simp only [Meaning.dumpExpr, Meaning.dumpLeaf, hget, hk]
  | call hh hp hn => exact ⟨_, _, fun v hv => hv.self hh hp _ hn, rfl, rfl⟩
  | @optional u _ x e hh _ ih =>
    obtain ⟨hhelper, hb⟩ := suited_cons.mp hb
    obtain ⟨b, hget, hfit⟩ := hhelper .optional ⟨_, rfl⟩
    cases hfit with
    | @optional w =>
      have hview := Meaning.viewOf?_eq s.schema.option hget rfl
      refine ⟨_, _, fun v hv => Dump.optional_prunes (t := .optional w) (hnone hh) fun w hw =>
        (ih hb ((x, w) :: env)).prunes (hv.parts.convertsAlike hw u), ?_, ?_⟩
      all_goals simp only [Meaning.dumpExpr, hview]
  | @boxed u _ x e hh _ ih =>
    obtain ⟨hhelper, hb⟩ := suited_cons.mp hb
    obtain ⟨b, hget, hfit⟩ := hhelper .boxed ⟨_, rfl⟩
    cases hfit with
    | @boxed w =>
      have hview := Meaning.viewOf?_eq s.schema.box hget rfl
      refine ⟨_, _, fun v hv => Dump.boxed_prunes (t := .boxed w) (hnone hh) fun w hw =>
        (ih hb ((x, w) :: env)).prunes (hv.parts.convertsAlike hw u), ?_, ?_⟩
      all_goals simp only [Meaning.dumpExpr, hview]
  | @list _ u _ x e hh _ ih =>
    obtain ⟨hhelper, hb⟩ := suited_cons.mp hb
    obtain ⟨b, hget, hfit⟩ := hhelper .list ⟨_, rfl⟩
    cases hfit with
    | @list k w =>
      have hview := Meaning.viewOf?_eq s.schema.item hget rfl
      refine ⟨_, _, fun v hv => Dump.list_prunes (t := .list k w) (hnone hh) fun w hw =>
        (ih hb ((x, w) :: env)).prunes (hv.parts.convertsAlike hw u), ?_, ?_⟩
      all_goals simp only [Meaning.dumpExpr, hview]
  | @map _ a u _ x y k e hh _ _ ihk ihv =>
    obtain ⟨hhelper, hb⟩ := suited_cons.mp hb
    obtain ⟨hbk, hbv⟩ := suited_append.mp hb
    obtain ⟨b, hget, hfit⟩ := hhelper .map ⟨_, rfl⟩
    cases hfit with
    | @map k' a' b' =>
      have hview := Meaning.viewOf?_eq s.schema.entry hget rfl
      refine ⟨_, _, fun v hv => Dump.map_prunes k' a' b' (hnone hh)
        (fun w hw => (ihk hbk ((x, w) :: env)).prunes (hv.parts.convertsAlike hw a))
        fun w hw => (ihv hbv ((y, w) :: env)).prunes (hv.parts.convertsAlike hw u), ?_, ?_⟩
      all_goals simp only [Meaning.dumpExpr, hview]

-- The rules of the alternatives of a union, by the numbers of the variants.
theorem Alternatives.prunes {x : String} {variants : List Variant} {es : List Expr}
    (h : Alternatives s name? x variants es)
    (hb : Suited s locals (Expr.usesAll s es (variants.map Variant.ty))) (env : Meaning.Env Value)
    {w : Value} (hw : ∀ t, ConvertsAlike s name? callee callee' t w) (i : Nat) :
    let rules := Meaning.dumpExprs s.schema locals callee x es env
    let rules' := Meaning.dumpExprs s.schema locals callee' x es env
    (rules[i]? = none ∧ rules'[i]? = none) ∨ ∃ (r r' : Dump.Rule) (variant : Variant),
      rules[i]? = some r ∧ rules'[i]? = some r' ∧ variants[i]? = some variant ∧
        Dump.Prunes s.schema s.hooks variant.ty r r' w := by
  induction h generalizing i with
  | nil => exact .inl ⟨rfl, rfl⟩
  | cons he _ ih =>
    obtain ⟨hbe, hb⟩ := suited_append.mp hb
    cases i with
    | zero => exact .inr ⟨_, _, _, rfl, rfl, rfl, (he.feedsAlike hd hbe _).prunes (hw _)⟩
    | succ i => exact ih hb i

-- A field is fed to the rule of its slot, or to that of its type.
theorem FieldExpr.exists_rules {f : Field} {arg : Operand} {e : Expr}
    (h : FieldExpr s name? f arg e) (hb : Suited s locals (e.uses s f.ty))
    (hc : CallsPrune s name? callee callee' n) (env : Meaning.Env Value) :
    ∃ r r' : Dump.Rule, (∀ w, w.size < n → Dump.Prunes s.schema s.hooks f.ty r r' w) ∧
      Meaning.dumpExpr s.schema locals callee e env = Meaning.feedValue s.schema locals env arg r ∧
      Meaning.dumpExpr s.schema locals callee' e env =
        Meaning.feedValue s.schema locals env arg r' := by
  cases h with
  | slot _ hn => exact ⟨_, _, hc _ _ hn, rfl, rfl⟩
  | inline _ he =>
    obtain ⟨r, r', hr, he, he'⟩ := he.feedsAlike hd hb env
    exact ⟨r, r', fun w hw => hr w (hc.convertsAlike hw f.ty), he, he'⟩

end Expressions

/-! ## Bodies -/

-- Writes fields without those that are null.
def Edit.omitting : Edit
  | .insert key e false => [.insert key e true]
  | stmt => [stmt]

theorem Edit.alike_omitting (o : Options) :
    Options.Alike omitting { o with omitNull := false } { o with omitNull := true } where
  plain   := by
    intro stmt h
    cases stmt <;> first | rfl | nomatch h
  checks  := fun _ _ => rfl
  inserts := fun _ _ => rfl

-- The operands of the parts of a value read what is found in it, which is smaller.
structure Reading (S : Schema) (locals : Locals) (v : Value) (source : Nat → Field → Operand)
    (found : Nat → Except SchemaError (Option Value)) : Prop where
  feeds   : ∀ i f, ∃ step, ∀ rule, Meaning.feedValue S locals [("o", v)] (source i f) rule =
    (Dump.part (found i) >>= rule).within step
  smaller : ∀ i w, found i = .ok (some w) → w.size < v.size

section Reading

variable {S : Schema} {locals : Locals} {t : Ty} (v : Value)
  (hcls : Meaning.typeOf? locals "cls" = some t)
include hcls

theorem reading_attr :
    Reading S locals v (fun i f => .attr "o" "cls" i f.name) fun i => S.getField t i v where
  feeds i f := by
    refine ⟨.key f.name, fun rule => ?_⟩
    simp [Meaning.feedValue, Meaning.readValue, Meaning.locate, Meaning.lookup, Keyed.get?, hcls]
  smaller i w h := by
    obtain ⟨_, id, vs, rfl, hi⟩ := Schema.getField_eq_ok_iff.mp h
    exact Nat.lt_succ_of_le <| Value.size_le_sizeList (List.mem_of_getElem? hi)

theorem reading_element :
    Reading S locals v (fun i _ => .element "o" "cls" i) fun i => S.getElement t i v where
  feeds i f := by
    refine ⟨.index i, fun rule => ?_⟩
    simp [Meaning.feedValue, Meaning.readValue, Meaning.locate, Meaning.lookup, Keyed.get?, hcls]
  smaller i w h := by
    obtain ⟨_, vs, rfl, hi⟩ := Schema.getElement_eq_ok_iff.mp h
    exact Nat.lt_succ_of_le <| Value.size_le_sizeList (List.mem_of_getElem? hi)

end Reading

-- Fields with what is found for them from number `i` on, and the trees of it.
structure PartRows (S : Schema) (hooks : Hooks) (found : Nat → Except SchemaError (Option Value))
    (i : Nat) (fs : List Field) (rows : List (Field × Pruning)) : Prop where
  fields : rows.map Prod.fst = fs
  values : ∀ j r, rows[j]? = some r → found (i + j) = .ok (some r.2.value)
  trees  : ∀ r ∈ rows, Pruned S hooks r.1.ty r.2.value r.2.full r.2.pruned

namespace PartRows

variable {S : Schema} {hooks : Hooks} {found : Nat → Except SchemaError (Option Value)} {i : Nat}
  {f : Field} {fs : List Field} {rows : List (Field × Pruning)}

theorem nil : PartRows S hooks found i [] [] :=
  ⟨rfl, nofun, nofun⟩

theorem cons {w : Value} {x y : Tree} (hw : found i = .ok (some w))
    (h : Pruned S hooks f.ty w x y) (hs : PartRows S hooks found (i + 1) fs rows) :
    PartRows S hooks found i (f :: fs) ((f, ⟨w, x, y⟩) :: rows) where
  fields := congrArg (f :: ·) hs.fields
  values := by
    intro j r hr
    cases j with
    | zero =>
      cases hr
      exact hw
    | succ j =>
      rw [← Nat.add_assoc, Nat.add_right_comm]
      exact hs.values j r hr
  trees  := List.forall_mem_cons.mpr ⟨h, hs.trees⟩

-- The elements of a tuple are told apart by their types alone.
theorem tuple {v : Value} {ts : List Ty} (hh : hooks.dump? (.tuple ts) = none)
    (h : PartRows S hooks (fun i => S.getElement (.tuple ts) i v) 0 (ts.map .ofElement) rows) :
    Pruned S hooks (.tuple ts) v (.array (rows.map fun r => r.2.full))
      (.array (rows.map fun r => r.2.pruned)) := by
  have hts : (rows.map fun r => (r.1.ty, r.2)).map Prod.fst = ts := by
    have hty := congrArg (List.map Field.ty) h.fields
    rw [List.map_map, List.map_map] at hty
    rw [List.map_map]
    exact hty.trans (List.map_id ts)
  have hp := Pruned.tuple (S := S) (v := v) hh hts ?values ?trees
  case values =>
    intro i r hr
    rw [List.getElem?_map] at hr
    obtain ⟨row, hrow, rfl⟩ := Option.map_eq_some_iff.mp hr
    simpa using h.values i row hrow
  case trees =>
    intro r hr
    obtain ⟨row, hrow, rfl⟩ := List.mem_map.mp hr
    exact h.trees row hrow
  rwa [List.map_map, List.map_map] at hp

end PartRows

section Bodies

variable {s : Settings} {name? : GuardKey → Option String} {locals : Locals}
  {callee callee' : String → Dump.Rule} {v : Value} {source : Nat → Field → Operand}
  {found : Nat → Except SchemaError (Option Value)} {i : Nat} {fs : List Field} {stmts : List Stmt}
  {t : Ty} (hd : s.direction = .dump) (hread : Reading s.schema locals v source found)
  (hc : CallsPrune s name? callee callee' v.size)
include hd hread hc

theorem FieldExpr.prunes {f : Field} {e : Expr} (h : FieldExpr s name? f (source i f) e)
    (hb : Suited s locals (e.uses s f.ty)) :
    (Meaning.dumpExpr s.schema locals callee e [("o", v)]).EndsAlike
      (fun x y => ∃ w, found i = .ok (some w) ∧ Pruned s.schema s.hooks f.ty w x y)
      (Meaning.dumpExpr s.schema locals callee' e [("o", v)]) := by
  obtain ⟨r, r', hr, he, he'⟩ := h.exists_rules hd hb hc [("o", v)]
  obtain ⟨step, hfeed⟩ := hread.feeds i f
  rw [he, he', hfeed, hfeed]
  exact (Dump.part_prunes fun w hw => hr w (hread.smaller i w hw)).within step

-- Parts that are pushed are all kept.
theorem Outputs.pushes_prune (h : Outputs s name? source (fun _ e => .push e) i fs stmts)
    (hb : Suited s locals (Stmt.usesAll s t fs (stmts ++ [.returnOutput]))) (xs ys : List Tree) :
    (Meaning.dumpBody s.schema locals callee [("o", v)] (some (.array xs))
        (stmts ++ [.returnOutput])).EndsAlike
      (fun x y => ∃ rows, PartRows s.schema s.hooks found i fs rows ∧
        x = .array (xs ++ rows.map fun r => r.2.full) ∧
        y = .array (ys ++ rows.map fun r => r.2.pruned))
      (Meaning.dumpBody s.schema locals callee' [("o", v)] (some (.array ys))
        ((stmts ++ [Stmt.returnOutput]).flatMap Edit.omitting)) := by
  induction h generalizing xs ys with
  | nil => exact .pure ⟨[], .nil, by simp, by simp⟩
  | @cons i f fs e stmts he _ ih =>
    obtain ⟨hbe, hb⟩ := suited_append.mp hb
    refine (he.prunes hd hread hc hbe).bind ?_
    rintro x y ⟨w, hw, hp⟩
    refine (ih hb (xs ++ [x]) (ys ++ [y])).imp ?_
    rintro _ _ ⟨rows, hrows, rfl, rfl⟩
    exact ⟨_, .cons hw hp hrows, by simp, by simp⟩

-- Of fields that are put under keys of their own those are kept that are not null.
theorem Outputs.insertions_prune (ho : s.options.omitNull = false)
    (h : Outputs s name? source (fun f e => .insert f.key e s.options.omitNull) i fs stmts)
    (hb : Suited s locals (Stmt.usesAll s t fs (stmts ++ [.returnOutput])))
    (hn : (fs.map Field.key).Nodup) (xs ys : List (String × Tree))
    (hxs : ∀ f ∈ fs, ∀ e ∈ xs, e.1 ≠ f.key) (hys : ∀ f ∈ fs, ∀ e ∈ ys, e.1 ≠ f.key) :
    (Meaning.dumpBody s.schema locals callee [("o", v)] (some (.object xs))
        (stmts ++ [.returnOutput])).EndsAlike
      (fun x y => ∃ rows, PartRows s.schema s.hooks found i fs rows ∧
        x = .object (xs ++ rows.map fun r => (r.1.key, r.2.full)) ∧
        y = .object (ys ++ (rows.filter fun r => r.2.pruned ≠ .null).map fun r =>
          (r.1.key, r.2.pruned)))
      (Meaning.dumpBody s.schema locals callee' [("o", v)] (some (.object ys))
        ((stmts ++ [Stmt.returnOutput]).flatMap Edit.omitting)) := by
  rw [ho] at h
  induction h generalizing xs ys with
  | nil => exact .pure ⟨[], .nil, by simp, by simp⟩
  | @cons i f fs e stmts he _ ih =>
    obtain ⟨hbe, hb⟩ := suited_append.mp hb
    obtain ⟨hnew, hn⟩ := List.nodup_cons.mp hn
    obtain ⟨hx, hxs⟩ := List.forall_mem_cons.mp hxs
    obtain ⟨hy, hys⟩ := List.forall_mem_cons.mp hys
    have hkey : ∀ g ∈ fs, f.key ≠ g.key :=
      fun g hg he => hnew <| he ▸ List.mem_map_of_mem hg
    have hlater {es : List (String × Tree)} (hes : ∀ g ∈ fs, ∀ e ∈ es, e.1 ≠ g.key) (x : Tree) :
        ∀ g ∈ fs, ∀ e ∈ es ++ [(f.key, x)], e.1 ≠ g.key := by
      intro g hg
      exact List.forall_mem_append.mpr ⟨hes g hg, List.forall_mem_singleton.mpr (hkey g hg)⟩
    refine (he.prunes hd hread hc hbe).bind ?_
    rintro x y ⟨w, hw, hp⟩
    simp only [Bool.false_and, Bool.false_eq_true, if_false, Bool.true_and, decide_eq_true_eq,
      Keyed.put_of_not_mem x hx, Keyed.put_of_not_mem y hy]
    split
    case isTrue hnull =>
      refine (ih hb hn _ _ (hlater hxs x) hys).imp ?_
      rintro _ _ ⟨rows, hrows, rfl, rfl⟩
      exact ⟨_, .cons hw hp hrows, by simp, by simp [hnull]⟩
    case isFalse hnull =>
      refine (ih hb hn _ _ (hlater hxs x) (hlater hys y)).imp ?_
      rintro _ _ ⟨rows, hrows, rfl, rfl⟩
      exact ⟨_, .cons hw hp hrows, by simp, by simp [hnull]⟩

end Bodies

section Procedures

variable {s : Settings} {name? : GuardKey → Option String} {locals : Locals}
  {callee callee' : String → Dump.Rule} {v : Value} {key : GuardKey} {body : List Stmt}

-- The keys of the fields of a mapping are told apart.
def GuardKey.KeysDistinct (S : Schema) (key : GuardKey) : Prop :=
  ∀ t fields, key = .origin t → S.shape t = .record fields false → (fields.map Field.key).Nodup

theorem BodyFor.prunes (h : BodyFor s name? key body) (hd : s.direction = .dump)
    (ho : s.options.omitNull = false)
    (hcls : Keyed.get? "cls" locals = some (.type key.subject))
    (hl : locals = Locals.bindAll [("cls", .type key.subject)] (bodyUses s key.subject body))
    (hkeys : key.KeysDistinct s.schema)
    (hself : ∀ t, key = .arguments [t] → ConvertsAlike s name? callee callee' t v)
    (hc : CallsPrune s name? callee callee' v.size) :
    (Meaning.dumpBody s.schema locals callee [("o", v)] none body).EndsAlike
      (Pruned s.schema s.hooks key.subject v)
      (Meaning.dumpBody s.schema locals callee' [("o", v)] none (body.flatMap Edit.omitting)) := by
  have hb : Suited s locals (bodyUses s key.subject body) := hl ▸ h.suited _
  have hparam : s.direction.param = "o" := congrArg Direction.param hd
  have hnone {t : Ty} (hh : s.hook? t = none) : s.hooks.dump? t = none :=
    (Settings.dump?_eq_none_iff hd).mpr hh
  have htype : Meaning.typeOf? locals "cls" = some key.subject := by simp [Meaning.typeOf?, hcls]
  cases h with
  | loadMapping hload | loadSequence hload | loadTuple hload => cases hd.symm.trans hload
  | @dumpMapping t fields stmts _ hh hs hputs =>
    simp only [bodyUses, GuardKey.subject, Schema.parts, hs] at hb
    rw [Stmt.usesAll_cons rfl] at hb
    refine (hputs.insertions_prune hd (reading_attr v htype) hc ho hb (hkeys t fields rfl hs) [] []
      (fun _ _ _ he => absurd he List.not_mem_nil)
      fun _ _ _ he => absurd he List.not_mem_nil).imp ?_
    rintro _ _ ⟨rows, hrows, rfl, rfl⟩
    obtain rfl := hrows.fields
    exact .mapping (hnone hh) hs (by simpa using hrows.values) hrows.trees
  | @dumpSequence t fields stmts _ hh hs hputs =>
    simp only [bodyUses, GuardKey.subject, Schema.parts, hs] at hb
    rw [Stmt.usesAll_cons rfl] at hb
    refine (hputs.pushes_prune hd (reading_attr v htype) hc hb [] []).imp ?_
    rintro _ _ ⟨rows, hrows, rfl, rfl⟩
    obtain rfl := hrows.fields
    exact .sequence (hnone hh) hs (by simpa using hrows.values) hrows.trees
  | @dumpTuple t ts stmts _ hh hs hputs =>
    simp only [bodyUses, GuardKey.subject, Schema.parts, hs] at hb
    rw [Stmt.usesAll_cons rfl] at hb
    refine (hputs.pushes_prune hd (reading_element v htype) hc hb [] []).imp ?_
    rintro _ _ ⟨rows, hrows, rfl, rfl⟩
    obtain rfl := Schema.eq_tuple_of_shape hs
    exact hrows.tuple (hnone hh)
  | @union t variants x es hh hs ha =>
    simp only [bodyUses, GuardKey.subject, Schema.parts, hs, Stmt.usesAll, Expr.uses,
      List.append_nil] at hb hl
    have hunion : Keyed.get? (s.schema.helperName "union" t) locals = some (.type t) :=
      hl ▸ ha.get?_union _
    have hvariants : s.schema.variants t = .ok variants := by simp [Schema.variants, hs]
    have hview := Meaning.viewOf?_eq s.schema.variants hunion hvariants
    have hrules := Dump.union_prunes (v := v) (t := t) (hnone hh) hs fun i w hw =>
      ha.prunes hd (suited_cons.mp hb).right [("o", v)] (hc.convertsAlike hw) i
    simp only [List.flatMap_cons, List.flatMap_nil, Edit.omitting, List.append_nil, hparam,
      Meaning.dumpBody, Meaning.dumpExpr, hview, Meaning.feedValue_var]
    exact hrules
  | value hn he =>
    simp only [bodyUses, GuardKey.subject, Stmt.usesAll, List.append_nil] at hb
    rw [hparam] at he
    exact (he.feedsAlike hd hb _).prunes ⟨fun hh hp => absurd ⟨hh, hp⟩ hn, hc⟩
  | slot he =>
    simp only [bodyUses, GuardKey.subject, Stmt.usesAll, List.append_nil] at hb
    rw [hparam] at he
    exact (he.feedsAlike hd hb _).prunes (hself _ rfl)

theorem ProcedureFor.prunes {p : Procedure} (h : ProcedureFor s name? key p)
    (hd : s.direction = .dump) (ho : s.options.omitNull = false)
    (hkeys : key.KeysDistinct s.schema)
    (hself : ∀ t, key = .arguments [t] → ConvertsAlike s name? callee callee' t v)
    (hc : CallsPrune s name? callee callee' v.size) :
    Dump.Prunes s.schema s.hooks key.subject (Meaning.runDump s.schema callee p)
      (Meaning.runDump s.schema callee' (Edit.omitting.procedure p)) v := by
  have hx : p.signature.valueParam? = some "o" := by
    rw [h.signature, hd]
    rfl
  have hx' : (Edit.omitting.procedure p).signature.valueParam? = some "o" := hx
  unfold Dump.Prunes Meaning.runDump
  rw [hx, hx']
  exact (h.body.prunes hd ho h.cls h.locals hkeys hself hc).through p.name

end Procedures

/-! ## Calls -/

theorem Edit.procedure?_map (f : Edit) (ps : List Procedure) (d : Direction) (name : String) :
    Meaning.procedure? (ps.map f.procedure) d name =
      (Meaning.procedure? ps d name).map f.procedure := by
  unfold Meaning.procedure?
  rw [List.find?_map]
  rfl

-- How many procedures can still take the same value after the one of a target.
def GuardKey.handsOn : GuardKey → Nat
  | .origin _ => 0
  | .arguments _ => 1

section Calls

variable {s : Settings} {root : Ty} {source : Source} {name? : GuardKey → Option String}

-- Values get smaller from call to call, but for the one that a slot hands on to the procedure of
-- its type.
theorem Compilation.calls_prune (hc : Compilation s root source name?) (hd : s.direction = .dump)
    (ho : s.options.omitNull = false)
    (hkeys : ∀ key name, name? key = some name → key.KeysDistinct s.schema) (n : Nat)
    {key : GuardKey} {name : String} (hk : name? key = some name) (v : Value)
    (hn : 2 * v.size + key.handsOn < n) :
    Dump.Prunes s.schema s.hooks key.subject
      (Meaning.callDump s.schema source.builder.sealed n name)
      (Meaning.callDump s.schema (source.builder.sealed.map Edit.omitting.procedure) n name) v := by
  induction n generalizing key name v with
  | zero => exact absurd hn (Nat.not_lt_zero _)
  | succ n ih =>
    have ⟨p, hp, hfor⟩ := hc.exists_procedure? hk
    rw [hd] at hp
    have hparts : CallsPrune s name? (Meaning.callDump s.schema source.builder.sealed n)
        (Meaning.callDump s.schema (source.builder.sealed.map Edit.omitting.procedure) n)
        v.size := by
      intro key' name' hk' w hw
      refine ih hk' w ?_
      have hrank : key'.handsOn ≤ 1 := by cases key' <;> simp [GuardKey.handsOn]
      omega
    have hprunes := hfor.prunes hd ho (hkeys key name hk) (fun t ht => ⟨?_, hparts⟩) hparts
    case refine_1 =>
      intro _ _ name' hk'
      refine ih hk' v ?_
      subst ht
      simp only [GuardKey.handsOn] at hn ⊢
      omega
    simpa only [Dump.Prunes, Meaning.callDump, Edit.procedure?_map, hp, Option.map_some]
      using hprunes

end Calls

/-! ## Dumpers -/

-- A run of a unit is that of the procedure by its name, if that run ends.
theorem Builder.Linked.dump_eq {b : Builder} {S : Schema} {U : CompiledUnit} (h : b.Linked S U)
    {name : String} {i n : Nat} {v : Value} (hi : U.slots.dump? name = some i)
    (hf : (Meaning.callDump S b.sealed n name v).Finished) :
    U.dump S i v = Meaning.callDump S b.sealed n name v := by
  have hall : Linker.DumpsAlike ⟨S, U.slots, []⟩ (U.callDump S n) (Meaning.callDump S b.sealed n) :=
    h.callDump_eq n
  have hcall := hall name i (SlotTable.get?_of_dump? hi)
  rw [← hcall] at hf ⊢
  exact ((U.callDump_upto_dump S n i v).eq hf).symm

section Dumpers

variable {S : Schema} {options : Options} {hooks : Hooks} {root : Ty}

theorem Settings.alike_omitting (S : Schema) (options : Options) (hooks : Hooks) (d : Direction) :
    Settings.Alike .omitting ⟨S, d, hooks, { options with omitNull := false }⟩
      ⟨S, d, hooks, { options with omitNull := true }⟩ :=
  ⟨rfl, rfl, Edit.alike_omitting options, fun _ => rfl⟩

theorem compileProcedures_omitting (S : Schema) (options : Options) (hooks : Hooks) (d : Direction)
    (root : Ty) :
    (compileProcedures S { options with omitNull := true } hooks d root).result =
      ((compileProcedures S { options with omitNull := false } hooks d root).result.mapError
        Edit.omitting.error).map fun source =>
          ⟨Edit.omitting.builder source.builder, source.entry⟩ :=
  compileProcedures_edited (Settings.alike_omitting S options hooks d) root

theorem exists_keeping_source {d : Dumper}
    (h : (compileDumper S options hooks root).result = .ok d) :
    ∃ source, (compileProcedures S { options with omitNull := false } hooks .dump
      root).result = .ok source := by
  have ⟨source, hs, _⟩ := compileDumper_linked h
  have halike := Settings.alike_omitting S options hooks .dump
  obtain ⟨debug, deny, omitNull⟩ := options
  cases omitNull with
  | false => exact ⟨source, hs⟩
  | true => exact exists_source_of_edited halike hs

-- Of what a dumper writes, one that omits nulls leaves out the fields of mappings that are null in
-- the end, and nothing else.
theorem dump_without_null_fields {d : Dumper}
    (h : (compileDumper S options hooks root).result = .ok d)
    (hkeys : ∀ t fields, Reached ⟨S, .dump, hooks, options⟩ root t →
      S.shape t = .record fields false → (fields.map Field.key).Nodup) :
    ∃ omitting keeping : Dumper,
      (compileDumper S { options with omitNull := true } hooks root).result = .ok omitting ∧
      (compileDumper S { options with omitNull := false } hooks root).result = .ok keeping ∧
      ∀ v : Value,
        (∃ e, (keeping.dump S v).outcome = .failed e ∧ (omitting.dump S v).outcome = .failed e) ∨
        ∃ x y, (keeping.dump S v).outcome = .done x ∧ (omitting.dump S v).outcome = .done y ∧
          Pruned S hooks root v x y := by
  have ⟨source, hs⟩ := exists_keeping_source h
  have hs' := compileProcedures_omitting S options hooks .dump root
  rw [hs] at hs'
  have ⟨keeping, hkeeping⟩ := exists_dumper_of_procedures hs
  have ⟨omitting, homitting⟩ := exists_dumper_of_procedures hs'
  have ⟨_, hc, hlink, hentry, hroot⟩ := compileDumper_linked hkeeping
  have ⟨_, hc', hlink', hentry', hroot'⟩ := compileDumper_linked homitting
  cases hs.symm.trans hc
  cases hs'.symm.trans hc'
  refine ⟨omitting, keeping, homitting, hkeeping, fun v => ?_⟩
  have ⟨g, hcomp, hw, _⟩ := compileProcedures_walked hs
  have hdistinct : ∀ key name, g.lookup key = some name → key.KeysDistinct S := by
    rintro key name hk t fields rfl hshape
    have hreached := ((hw.mem_iff _).mp (Guard.mem_keys hk)).reached
    exact hkeys t fields hreached.of_options hshape
  have hruns := hcomp.calls_prune rfl rfl hdistinct (2 * v.size + 1) hcomp.entry v
    (Nat.lt_succ_self _)
  have hdump := (Builder.linked_of_link hlink).dump_eq hentry hruns.finished.left
  have hdump' := (Builder.linked_of_link hlink').dump_eq hentry' hruns.finished.right
  have hends : (keeping.dump S v).EndsAlike (Pruned S hooks root v) (omitting.dump S v) := by
    unfold Dumper.dump
    rw [hroot, hroot']
    split
    case isFalse => exact .fault _
    case isTrue =>
      rw [hdump, hdump']
      exact hruns
  exact hends.failed_or_done

end Dumpers

-- A note that can be missing, by itself, in a list, under a name and in a note that is boxed.
def notes : Schema where
  declarations := [
    ("Note", {
      names := .qualified "app" "Note"
      definition := .record [
        { name := "text", key := "text", ty := text },
        { name := "lines", key := "lines", ty := .list .vector text },
        { name := "by_name", key := "byName", ty := .map .ordered (.scalar .string) text },
        { name := "reply", key := "reply", ty := .optional (.boxed (.declared "Note")) }] false })]
where
  text : Ty := .optional (.scalar .string)

theorem dump_without_null_fields_notes :
    ∃ omitting keeping : Dumper,
      (compileDumper notes { omitNull := true } {} (.declared "Note")).result = .ok omitting ∧
      (compileDumper notes {} {} (.declared "Note")).result = .ok keeping ∧
      ∀ v : Value,
        (∃ e, (keeping.dump notes v).outcome = .failed e ∧
          (omitting.dump notes v).outcome = .failed e) ∨
        ∃ x y, (keeping.dump notes v).outcome = .done x ∧
          (omitting.dump notes v).outcome = .done y ∧ Pruned notes {} (.declared "Note") v x y := by
  have ⟨d, hd⟩ := Compiled.exists_ok (x := compileDumper notes {} {} (.declared "Note"))
    (by decide +kernel)
  have hkeys : ∀ t ∈ WrapperSet.reachable notes [.declared "Note"],
      ((notes.parts t).map Field.key).Nodup := by
    decide +kernel
  have hdumps := dump_without_null_fields hd fun t fields ht hs => by
    have hparts := hkeys t ht.mem_reachable
    simpa only [Schema.parts, hs] using hparts
  exact hdumps

-- The nulls in the list and in the map stay.
example : ((compileDumper notes { omitNull := true } {} (.declared "Note")).result.toOption.map
    fun d => (d.dump notes (.record "Note" [.none (.scalar .string),
      .list .vector notes.text [.none (.scalar .string)],
      .map .ordered (.scalar .string) notes.text [(.text "me", .none (.scalar .string))],
      .none (.boxed (.declared "Note"))])).outcome) =
    some (.done (.object [("lines", .array [.null]), ("byName", .object [("me", .null)])])) := by
  decide +kernel


end TreeCodec
