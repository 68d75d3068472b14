import TreeCodec.Proofs.BodyParts
import TreeCodec.Proofs.LinkAccepts

/-!
Compiled procedures are well formed.

Helper names of one procedure may coincide. They then stand for things of one kind all the same: a
name begins with a word for the kind of its helper, and no kind has the word of another one.
-/
namespace TreeCodec

open WellFormed

inductive HelperKind where
  | hook | leaf | optional | boxed | list | map | union | default
  deriving DecidableEq

namespace HelperKind

def word : HelperKind → String
  | hook => "hook"
  | leaf => "as"
  | optional => "optional"
  | boxed => "boxed"
  | list => "list"
  | map => "map"
  | union => "union"
  | default => "default"

-- A name of a helper of a kind.
def Names (k : HelperKind) (name : String) : Prop :=
  ∃ rest, name = k.word ++ "_" ++ rest

-- What a helper of a kind can be bound to.
inductive Fits (s : Settings) : HelperKind → Binding → Prop
  | hook {t : Ty} {b : Binding} : s.hook? t = some b → Fits s .hook b
  | leaf {t : Ty} : s.schema.IsLeaf t → Fits s .leaf (.type t)
  | optional {u : Ty} : Fits s .optional (.type (.optional u))
  | boxed {u : Ty} : Fits s .boxed (.type (.boxed u))
  | list {k : ListKind} {u : Ty} : Fits s .list (.type (.list k u))
  | map {k : MapKind} {u v : Ty} : Fits s .map (.type (.map k u v))
  | union {t : Ty} {variants : List Variant} :
    s.schema.shape t = .union variants → Fits s .union (.type t)
  | default {v : Value} : Fits s .default (.default v)

theorem word_injective {k k' : HelperKind} (h : k.word = k'.word) : k = k' := by
  cases k <;> cases k' <;> first | rfl | exact absurd h (by decide)

theorem takeWhile_of_names {k : HelperKind} {name : String} (h : k.Names name) :
    name.toList.takeWhile (· ≠ '_') = k.word.toList := by
  obtain ⟨rest, rfl⟩ := h
  cases k <;> simp [word]

theorem Names.unique {k k' : HelperKind} {name : String} (h : k.Names name) (h' : k'.Names name) :
    k = k' :=
  word_injective <| String.toList_injective <|
    (takeWhile_of_names h).symm.trans (takeWhile_of_names h')

end HelperKind

section Uses

variable {s : Settings} {name? : GuardKey → Option String}

-- A use of a helper is of its kind.
def Kinded (s : Settings) (use : String × Binding) : Prop :=
  ∃ k : HelperKind, k.Names use.1 ∧ k.Fits s use.2

-- A use of a helper within the procedure of a type, which is not one for the variants of the type.
def Inner (s : Settings) (use : String × Binding) : Prop :=
  ∃ k : HelperKind, k ≠ .union ∧ k.Names use.1 ∧ k.Fits s use.2

theorem Inner.kinded {use : String × Binding} (h : Inner s use) : Kinded s use :=
  have ⟨k, _, hn, hf⟩ := h
  ⟨k, hn, hf⟩

theorem ExprFor.inner {t : Ty} {arg : Operand} {e : Expr} (h : ExprFor s name? t arg e) :
    ∀ use ∈ e.uses s t, Inner s use := by
  induction h with
  | @hook t _ b hh =>
    simp only [Expr.uses, hh, List.forall_mem_singleton]
    exact ⟨.hook, by decide, ⟨_, rfl⟩, .hook hh⟩
  | leaf hh hl =>
    simp only [Expr.uses, hh, List.forall_mem_singleton]
    exact ⟨.leaf, by decide, ⟨_, rfl⟩, .leaf hl⟩
  | call => exact List.forall_mem_nil _
  | optional _ _ ih =>
    simp only [Expr.uses, Schema.shape, List.forall_mem_cons]
    exact ⟨⟨.optional, by decide, ⟨_, rfl⟩, .optional⟩, ih⟩
  | boxed _ _ ih =>
    simp only [Expr.uses, Schema.shape, List.forall_mem_cons]
    exact ⟨⟨.boxed, by decide, ⟨_, rfl⟩, .boxed⟩, ih⟩
  | list _ _ ih =>
    simp only [Expr.uses, Schema.shape, List.forall_mem_cons]
    exact ⟨⟨.list, by decide, ⟨_, rfl⟩, .list⟩, ih⟩
  | map _ _ _ ihk ihv =>
    simp only [Expr.uses, Schema.shape, List.forall_mem_cons, List.forall_mem_append]
    exact ⟨⟨.map, by decide, ⟨_, rfl⟩, .map⟩, ihk, ihv⟩

theorem Alternatives.inner {x : String} {variants : List Variant} {es : List Expr}
    (h : Alternatives s name? x variants es) :
    ∀ use ∈ Expr.usesAll s es (variants.map Variant.ty), Inner s use := by
  induction h with
  | nil => nofun
  | cons he _ ih =>
    simp only [List.map_cons, Expr.usesAll, List.forall_mem_append]
    exact ⟨he.inner, ih⟩

theorem BodyExpr.kinded {key : GuardKey} {e : Expr} {uses : List (String × Binding)}
    (h : BodyExpr s name? key e uses) : ∀ use ∈ uses, Kinded s use := by
  cases h with
  | value _ he => exact fun use hu => (he.inner use hu).kinded
  | slot => nofun
  | union _ _ hs ha =>
    exact List.forall_mem_cons.mpr
      ⟨⟨.union, ⟨_, rfl⟩, .union hs⟩, fun use hu => (ha.inner use hu).kinded⟩

theorem BodyFor.kinded {key : GuardKey} {body : List Stmt} (h : BodyFor s name? key body) :
    ∀ use ∈ bodyUses s key.subject body, Kinded s use := by
  intro use hu
  rcases h.parts.uses use hu with ⟨_, _, he, hu⟩ | ⟨_, _, rfl⟩
  · exact he.kinded use hu
  · exact ⟨.default, ⟨_, rfl⟩, .default⟩

end Uses

section Bodies

variable {s : Settings} {name? : GuardKey → Option String} {procedures : List Procedure}
variable {locals : Locals} {scope : List String}

-- The name of every use of a helper is bound to something that a helper of its kind can be bound
-- to.
def Suited (s : Settings) (locals : Locals) (uses : List (String × Binding)) : Prop :=
  ∀ use ∈ uses, ∀ k : HelperKind, k.Names use.1 →
    ∃ b, Keyed.get? use.1 locals = some b ∧ k.Fits s b

theorem suited_cons {use : String × Binding} {uses : List (String × Binding)} :
    Suited s locals (use :: uses) ↔
      (∀ k : HelperKind, k.Names use.1 → ∃ b, Keyed.get? use.1 locals = some b ∧ k.Fits s b) ∧
        Suited s locals uses :=
  List.forall_mem_cons

theorem suited_append {uses uses' : List (String × Binding)} :
    Suited s locals (uses ++ uses') ↔ Suited s locals uses ∧ Suited s locals uses' :=
  List.forall_mem_append

theorem leafHelper_of_hook {t : Ty} {name : String} {b : Binding} (hh : s.hook? t = some b)
    (hb : Keyed.get? name locals = some b) : LeafHelper s.schema locals s.direction name := by
  unfold Settings.hook? at hh
  cases hd : s.direction with
  | load =>
    rw [hd] at hh
    obtain ⟨f, _, rfl⟩ := Option.map_eq_some_iff.mp hh
    exact .loadHook rfl hb
  | dump =>
    rw [hd] at hh
    obtain ⟨f, _, rfl⟩ := Option.map_eq_some_iff.mp hh
    exact .dumpHook rfl hb

theorem leafHelper_of_isLeaf {t : Ty} {name : String} (h : s.schema.IsLeaf t)
    (hb : Keyed.get? name locals = some (.type t)) :
    LeafHelper s.schema locals s.direction name := by
  rcases h with ⟨k, hk⟩ | hd
  · exact .scalar ⟨hb, hk⟩
  · exact .dynamic ⟨hb, hd⟩

theorem reads_var {x : String} (h : x ∈ scope) (d : Direction) :
    Reads s.schema locals scope d (.var x) := by
  cases d
  · exact .var h
  · exact .var h

theorem ExprFor.wellFormed {t : Ty} {arg : Operand} {e : Expr} (h : ExprFor s name? t arg e)
    (hcalls : ∀ key p, name? key = some p → Defined procedures s.direction p)
    (hb : Suited s locals (e.uses s t)) (hr : Reads s.schema locals scope s.direction arg) :
    WellFormedExpr s.schema procedures locals s.direction scope e := by
  induction h generalizing scope with
  | @hook t _ b hh =>
    have ⟨b, hget, hfit⟩ := hb _ (List.mem_singleton_self _) .hook ⟨_, rfl⟩
    cases hfit with
    | hook hh' => exact .leaf hr <| leafHelper_of_hook hh' hget
  | leaf _ _ =>
    have ⟨b, hget, hfit⟩ := hb _ (List.mem_singleton_self _) .leaf ⟨_, rfl⟩
    cases hfit with
    | leaf hl => exact .leaf hr <| leafHelper_of_isLeaf hl hget
  | call _ _ hn => exact .call hr <| hcalls _ _ hn
  | optional _ _ ih =>
    have ⟨hhelper, hb⟩ := suited_cons.mp hb
    have ⟨b, hget, hfit⟩ := hhelper .optional ⟨_, rfl⟩
    cases hfit with
    | optional => exact .optional hr ⟨hget, rfl⟩ <| ih hb <| reads_var (List.mem_cons_self ..) _
  | boxed _ _ ih =>
    have ⟨hhelper, hb⟩ := suited_cons.mp hb
    have ⟨b, hget, hfit⟩ := hhelper .boxed ⟨_, rfl⟩
    cases hfit with
    | boxed => exact .boxed hr ⟨hget, rfl⟩ <| ih hb <| reads_var (List.mem_cons_self ..) _
  | list _ _ ih =>
    have ⟨hhelper, hb⟩ := suited_cons.mp hb
    have ⟨b, hget, hfit⟩ := hhelper .list ⟨_, rfl⟩
    cases hfit with
    | list => exact .list hr ⟨hget, rfl⟩ <| ih hb <| reads_var (List.mem_cons_self ..) _
  | map _ _ _ ihk ihv =>
    have ⟨hhelper, hb⟩ := suited_cons.mp hb
    have ⟨hbk, hbv⟩ := suited_append.mp hb
    have ⟨b, hget, hfit⟩ := hhelper .map ⟨_, rfl⟩
    cases hfit with
    | map =>
      exact .map hr ⟨hget, rfl⟩ (ihk hbk <| reads_var (List.mem_cons_self ..) _)
        (ihv hbv <| reads_var (List.mem_cons_self ..) _)

theorem FieldExpr.wellFormed {f : Field} {arg : Operand} {e : Expr}
    (h : FieldExpr s name? f arg e)
    (hcalls : ∀ key p, name? key = some p → Defined procedures s.direction p)
    (hb : Suited s locals (e.uses s f.ty)) (hr : Reads s.schema locals scope s.direction arg) :
    WellFormedExpr s.schema procedures locals s.direction scope e := by
  cases h with
  | slot _ hn => exact .call hr <| hcalls _ _ hn
  | inline _ he => exact he.wellFormed hcalls hb hr

theorem Alternatives.wellFormed {x : String} {variants : List Variant} {es : List Expr}
    (h : Alternatives s name? x variants es)
    (hcalls : ∀ key p, name? key = some p → Defined procedures s.direction p)
    (hb : Suited s locals (Expr.usesAll s es (variants.map Variant.ty))) :
    ∀ e ∈ es, WellFormedExpr s.schema procedures locals s.direction (x :: scope) e := by
  induction h with
  | nil => exact List.forall_mem_nil _
  | cons he _ ih =>
    obtain ⟨hb, hrest⟩ := suited_append.mp hb
    refine List.forall_mem_cons.mpr ⟨?_, ih hrest⟩
    exact he.wellFormed hcalls hb <| reads_var (List.mem_cons_self ..) _

theorem suited_default {f : Field} (hb : Suited s locals
      (defaultUses f (f.default.map fun _ => f.defaultName))) :
    ∀ name ∈ f.default.map fun _ => f.defaultName,
      ∃ v, Keyed.get? name locals = some (.default v) := by
  intro name hn
  obtain ⟨v, hv, rfl⟩ := Option.map_eq_some_iff.mp hn
  have ⟨b, hget, hfit⟩ := hb (f.defaultName, .default v) (by simp [defaultUses, hv]) .default
    ⟨_, rfl⟩
  cases hfit with
  | @default w => exact ⟨w, hget⟩

theorem Assigns.wellFormed {source : Nat → Field → Operand} {i : Nat} {fs : List Field}
    {stmts rest : List Stmt} {t : Ty} {x : String} (h : Assigns s name? source i fs stmts)
    (hd : s.direction = .load)
    (hcalls : ∀ key p, name? key = some p → Defined procedures s.direction p)
    (hb : Suited s locals (Stmt.usesAll s t fs (stmts ++ rest)))
    (hr : ∀ i f, ReadsTree [x] (source i f)) :
    WellFormed.Assigns s.schema procedures locals x i (i + fs.length) stmts := by
  induction h with
  | nil => exact .nil
  | @cons i f fs e stmts he _ ih =>
    have ⟨hb, hrest⟩ := suited_append.mp hb
    have ⟨hexpr, hdefault⟩ := suited_append.mp hb
    have hread : Reads s.schema locals [x] s.direction (source i f) := by
      rw [hd]
      exact hr i f
    have hwf := he.wellFormed hcalls hexpr hread
    rw [hd] at hwf
    rw [List.length_cons, Nat.add_comm fs.length, ← Nat.add_assoc]
    exact .cons (hr i f) hwf (suited_default hdefault) (ih hrest)

theorem Outputs.wellFormed {source : Nat → Field → Operand} {put : Field → Expr → Stmt} {i : Nat}
    {fs : List Field} {stmts rest : List Stmt} {t : Ty} {x : String} {R : List Stmt → Prop}
    (h : Outputs s name? source put i fs stmts) (hd : s.direction = .dump) (hput : Puts s put)
    (hcalls : ∀ key p, name? key = some p → Defined procedures s.direction p)
    (hb : Suited s locals (Stmt.usesAll s t fs (stmts ++ rest)))
    (hr : ∀ j < i + fs.length, ∀ f, ReadsValue s.schema locals [x] (source j f)) (hnil : R [])
    (hcons : ∀ f e stmts, WellFormedExpr s.schema procedures locals .dump [x] e → R stmts →
      R (put f e :: stmts)) : R stmts := by
  induction h with
  | nil => exact hnil
  | @cons i f fs e stmts he _ ih =>
    rw [List.cons_append, (hput f e).right] at hb
    have ⟨hexpr, hrest⟩ := suited_append.mp hb
    have hread : Reads s.schema locals [x] s.direction (source i f) := by
      rw [hd]
      exact hr i (by simp) f
    have hwf := he.wellFormed hcalls hexpr hread
    rw [hd] at hwf
    refine hcons f e stmts hwf <| ih hrest fun j hj => hr j ?_
    rw [List.length_cons]
    omega

-- What a procedure binds to the names of its helpers suits all uses of them.
theorem BodyFor.suited {key : GuardKey} {body : List Stmt} (h : BodyFor s name? key body)
    (base : Locals) :
    Suited s (base.bindAll (bodyUses s key.subject body)) (bodyUses s key.subject body) := by
  intro use hu k hn
  have ⟨b, hm, hget⟩ := Locals.exists_get?_bindAll base hu
  have ⟨k', hn', hf⟩ := h.kinded _ hm
  exact ⟨b, hget, hn.unique hn' ▸ hf⟩

-- A union is converted by one expression, so its helper is bound to the union itself.
theorem Alternatives.get?_union {t : Ty} {x : String} {variants : List Variant} {es : List Expr}
    (h : Alternatives s name? x variants es) (base : Locals) :
    Keyed.get? (s.schema.helperName "union" t) (base.bindAll
      ((s.schema.helperName "union" t, .type t) ::
        Expr.usesAll s es (variants.map Variant.ty))) = some (.type t) := by
  have ⟨b, hm, hget⟩ := Locals.exists_get?_bindAll base <|
    List.mem_cons_self (a := (s.schema.helperName "union" t, Binding.type t))
      (l := Expr.usesAll s es (variants.map Variant.ty))
  rcases List.mem_cons.mp hm with he | hm
  case inl =>
    cases he
    exact hget
  case inr =>
    have ⟨k, hne, hn, _⟩ := h.inner _ hm
    have hunion : HelperKind.union.Names (s.schema.helperName "union" t) := ⟨_, rfl⟩
    exact absurd (hn.unique hunion) hne

end Bodies

section Procedures

variable {s : Settings} {name? : GuardKey → Option String} {procedures : List Procedure}
variable {locals : Locals} {key : GuardKey} {body : List Stmt}

-- A body of a compiled procedure.
def WellFormedBody (S : Schema) (procedures : List Procedure) (locals : Locals) :
    Direction → List Stmt → Prop
  | .load => LoadBody S procedures locals "v1"
  | .dump => WellFormed.DumpBody S procedures locals "o"

theorem wellFormedBody_returnValue {d : Direction} {e : Expr}
    (h : WellFormedExpr s.schema procedures locals d [d.param] e) :
    WellFormedBody s.schema procedures locals d [.returnValue e] := by
  cases d with
  | load => exact ⟨[], [], _, 0, rfl, .none, .nil, .value rfl h⟩
  | dump => exact .value h

theorem Assigns.loadBody {source : Nat → Field → Operand} {fields : List Field} {t : Ty}
    {checks stmts : List Stmt} (h : Assigns s name? source 0 fields stmts)
    (hd : s.direction = .load)
    (hcalls : ∀ key p, name? key = some p → Defined procedures s.direction p)
    (hb : Suited s locals (Stmt.usesAll s t fields (stmts ++ [.construct "cls"])))
    (hr : ∀ i f, ReadsTree ["v1"] (source i f)) (hc : Checks "v1" checks)
    (hcls : Results s.schema procedures locals "v1" fields.length (.construct "cls")) :
    LoadBody s.schema procedures locals "v1" (checks ++ (stmts ++ [.construct "cls"])) := by
  have ha := h.wellFormed hd hcalls hb hr
  rw [Nat.zero_add] at ha
  exact ⟨checks, stmts, _, _, (List.append_assoc ..).symm, hc, ha, hcls⟩

theorem BodyFor.wellFormed (h : BodyFor s name? key body)
    (hcalls : ∀ key p, name? key = some p → Defined procedures s.direction p)
    (hcls : Keyed.get? "cls" locals = some (.type key.subject))
    (hl : locals = Locals.bindAll [("cls", .type key.subject)] (bodyUses s key.subject body)) :
    WellFormedBody s.schema procedures locals s.direction body := by
  have hb : Suited s locals (bodyUses s key.subject body) := hl ▸ h.suited _
  cases h with
  | @loadMapping t fields stmts hd _ hs ha =>
    simp only [bodyUses, GuardKey.subject, Schema.parts, hs] at hb
    rw [Stmt.usesAll_cons rfl, Stmt.usesAll_keyChecks] at hb
    have hc : Checks "v1" (.beginMapping (.var "v1") :: keyChecks s fields) := by
      unfold keyChecks
      split
      · exact .knownKeys
      · exact .mapping
    rw [hd]
    exact ha.loadBody hd hcalls hb (fun _ _ => .key (List.mem_singleton_self _)) hc
      (.record ⟨hcls, hs⟩ rfl)
  | @loadSequence t fields stmts hd _ hs ha =>
    simp only [bodyUses, GuardKey.subject, Schema.parts, hs] at hb
    rw [Stmt.usesAll_cons rfl] at hb
    rw [hd]
    exact ha.loadBody hd hcalls hb (fun _ _ => .item (List.mem_singleton_self _))
      (.sequence (requiredLength_le fields)) (.record ⟨hcls, hs⟩ rfl)
  | @loadTuple t ts stmts hd _ hs ha =>
    simp only [bodyUses, GuardKey.subject, Schema.parts, hs] at hb
    rw [Stmt.usesAll_cons rfl] at hb
    rw [hd]
    exact ha.loadBody hd hcalls hb (fun _ _ => .item (List.mem_singleton_self _))
      (.sequence (Nat.le_refl _)) (.tuple ⟨hcls, hs⟩ (List.length_map ..).symm)
  | @dumpMapping t fields stmts hd _ hs ho =>
    simp only [bodyUses, GuardKey.subject, Schema.parts, hs] at hb
    rw [Stmt.usesAll_cons rfl] at hb
    rw [hd]
    refine .mapping (ho.wellFormed hd puts_insert hcalls hb ?_ .nil fun _ _ _ => .cons)
    exact fun j hj f => .attr (List.mem_singleton_self _) ⟨hcls, hs⟩ (by simpa using hj)
  | @dumpSequence t fields stmts hd _ hs ho =>
    simp only [bodyUses, GuardKey.subject, Schema.parts, hs] at hb
    rw [Stmt.usesAll_cons rfl] at hb
    rw [hd]
    refine .sequence (ho.wellFormed hd puts_push hcalls hb ?_ .nil fun _ _ _ => .cons)
    exact fun j hj f => .attr (List.mem_singleton_self _) ⟨hcls, hs⟩ (by simpa using hj)
  | @dumpTuple t ts stmts hd _ hs ho =>
    simp only [bodyUses, GuardKey.subject, Schema.parts, hs] at hb
    rw [Stmt.usesAll_cons rfl] at hb
    rw [hd]
    refine .sequence (ho.wellFormed hd puts_push hcalls hb ?_ .nil fun _ _ _ => .cons)
    exact fun j hj f => .element (List.mem_singleton_self _) ⟨hcls, hs⟩ (by simpa using hj)
  | @union t variants x es _ hs ha =>
    simp only [bodyUses, GuardKey.subject, Schema.parts, hs, Stmt.usesAll, Expr.uses,
      List.append_nil] at hb hl
    have hunion : Keyed.get? (s.schema.helperName "union" t) locals = some (.type t) :=
      hl ▸ ha.get?_union _
    apply wellFormedBody_returnValue
    refine .union (reads_var (List.mem_singleton_self _) _) ⟨hunion, hs⟩ ha.length_eq.symm ?_
    exact ha.wellFormed hcalls (suited_cons.mp hb).right
  | value _ he | slot he =>
    simp only [bodyUses, GuardKey.subject, Stmt.usesAll, List.append_nil] at hb
    apply wellFormedBody_returnValue
    exact he.wellFormed hcalls hb <| reads_var (List.mem_singleton_self _) _

theorem ProcedureFor.wellFormed {p : Procedure} (h : ProcedureFor s name? key p)
    (hcalls : ∀ key p, name? key = some p → Defined procedures s.direction p) :
    WellFormedProcedure s.schema procedures p := by
  have hbody := h.body.wellFormed hcalls h.cls h.locals
  unfold WellFormedProcedure
  rw [h.signature]
  cases hd : s.direction <;> exact ⟨_, rfl, by rwa [hd] at hbody⟩

end Procedures

end TreeCodec
