import TreeCodec.Proofs.ErrorPath
import TreeCodec.Proofs.OperandRule
import TreeCodec.Proofs.TargetSlot

/-!
The arrays that positional records are loaded from.

An array may end before fields that all have defaults. It is checked against two numbers only, and
each field without an element then takes its default.
-/
namespace TreeCodec

/-! ## Lengths -/

section Lengths

variable {fields : List Field} {n : Nat}

theorem requiredLength_le_iff :
    requiredLength fields ≤ n ↔
      ∀ i f, fields[i]? = some f → n ≤ i → f.default.isSome = true := by
  constructor
  case mp =>
    intro hn i f hf hi
    by_contra hd
    have := lt_requiredLength hf (Option.not_isSome_iff_eq_none.mp hd)
    omega
  case mpr =>
    intro h
    induction fields generalizing n with
    | nil => exact Nat.zero_le n
    | cons f fs ih =>
      simp only [requiredLength]
      cases n with
      | zero =>
        have hfs : requiredLength fs ≤ 0 := ih fun i g hg _ => h (i + 1) g hg (Nat.zero_le _)
        have hf := h 0 f rfl (Nat.le_refl 0)
        simp [Nat.le_zero.mp hfs, hf]
      | succ n =>
        have hfs : requiredLength fs ≤ n :=
          ih fun i g hg hi => h (i + 1) g hg (Nat.succ_le_succ hi)
        split <;> omega

-- An array of a length has an element for each field without a default, and for no more than the
-- fields.
def Fits (fields : List Field) (n : Nat) : Prop :=
  n ≤ fields.length ∧ ∀ i f, fields[i]? = some f → n ≤ i → f.default.isSome = true

theorem fits_iff : Fits fields n ↔ requiredLength fields ≤ n ∧ n ≤ fields.length := by
  rw [Fits, ← requiredLength_le_iff, and_comm]

theorem checkSequence_array_eq (min len : Nat) (items : List Tree) :
    Load.checkSequence min len (some (.array items)) =
      if items.length < min then Run.fault (.length min items.length)
      else if len < items.length then Run.fault (.length len items.length)
      else pure () :=
  rfl

theorem checkSequence_done_iff {min len : Nat} {items : List Tree} :
    (Load.checkSequence min len (some (.array items))).outcome = .done () ↔
      min ≤ items.length ∧ items.length ≤ len := by
  constructor
  case mp =>
    intro h
    have ⟨_, hx, hlen⟩ := exists_of_checkSequence h
    cases hx
    exact hlen
  case mpr =>
    rintro ⟨hmin, hlen⟩
    rw [checkSequence_array_eq, if_neg (Nat.not_lt.mpr hmin), if_neg (Nat.not_lt.mpr hlen)]
    rfl

end Lengths

/-! ## Defaults -/

section Defaults

variable {s : Settings} {name? : GuardKey → Option String}

theorem Settings.hook?_ne_default (t : Ty) (v : Value) : s.hook? t ≠ some (.default v) := by
  unfold hook?
  cases s.direction <;> simp

theorem ExprFor.default_not_mem_uses {t : Ty} {arg : Operand} {e : Expr}
    (h : ExprFor s name? t arg e) (name : String) (v : Value) :
    (name, .default v) ∉ e.uses s t := by
  induction h with
  | hook hh =>
    rintro hm
    simp only [Expr.uses, hh, Option.getD_some, List.mem_singleton, Prod.mk.injEq] at hm
    exact s.hook?_ne_default _ v <| hm.right ▸ hh
  | leaf hh => simp [Expr.uses, hh]
  | call => exact List.not_mem_nil
  | optional _ _ ih | boxed _ _ ih | list _ _ ih => simpa [Expr.uses, Schema.shape] using ih
  | map _ _ _ ihk ihv => simpa [Expr.uses, Schema.shape] using ⟨ihk, ihv⟩

theorem FieldExpr.default_not_mem_uses {f : Field} {arg : Operand} {e : Expr}
    (h : FieldExpr s name? f arg e) (name : String) (v : Value) :
    (name, .default v) ∉ e.uses s f.ty := by
  cases h with
  | slot => exact List.not_mem_nil
  | inline _ he => exact he.default_not_mem_uses name v

-- A default that is bound in the body of a record is that of a field.
theorem Assigns.exists_default {source : Nat → Field → Operand} {i : Nat} {fs : List Field}
    {stmts : List Stmt} {t : Ty} {cls name : String} {v : Value}
    (h : Assigns s name? source i fs stmts)
    (hm : (name, .default v) ∈ Stmt.usesAll s t fs (stmts ++ [.construct cls])) :
    ∃ f ∈ fs, f.default = some v ∧ f.defaultName = name := by
  induction h with
  | nil => cases hm
  | @cons i f fs e stmts he _ ih =>
    simp only [List.cons_append, Stmt.usesAll, List.mem_append] at hm
    rcases hm with (hm | hm) | hm
    case inl.inl => exact absurd hm <| he.default_not_mem_uses name v
    case inl.inr =>
      cases hd : f.default with
      | none => simp [defaultUses, hd] at hm
      | some w =>
        simp only [defaultUses, hd, Option.map_some, List.mem_singleton] at hm
        cases hm
        exact ⟨f, List.mem_cons_self, hd, rfl⟩
    case inr =>
      obtain ⟨g, hg, hgd⟩ := ih hm
      exact ⟨g, List.mem_cons_of_mem _ hg, hgd⟩

-- No two defaults of fields have one name.
def DefaultsDistinct (fields : List Field) : Prop :=
  ((fields.filter fun f => f.default.isSome).map Field.defaultName).Nodup

instance (fields : List Field) : Decidable (DefaultsDistinct fields) :=
  inferInstanceAs (Decidable (List.Nodup _))

-- Where the names of defaults are distinct, that of a field is linked to the default of the field.
theorem Assigns.default_of_linked {source : Nat → Field → Operand} {i : Nat} {fs : List Field}
    {stmts : List Stmt} {t : Ty} {L : Linker} (h : Assigns s name? source i fs stmts)
    (hl : L.locals = Locals.bindAll [("cls", .type t)]
      (Stmt.usesAll s t fs (stmts ++ [.construct "cls"])))
    (hd : DefaultsDistinct fs) {f : Field} (hf : f ∈ fs) {default : Option Value}
    (hv : DefaultLinked L (f.default.map fun _ => f.defaultName) default) :
    default = f.default := by
  cases hw : f.default with
  | none =>
    rw [hw] at hv
    cases hv
    rfl
  | some w =>
    rw [hw] at hv
    cases hv with
    | @some _ v hget =>
      have ⟨g, hg, hgv, hname⟩ : ∃ g ∈ fs, g.default = some v ∧ g.defaultName = f.defaultName := by
        rw [hl] at hget
        rcases Locals.mem_of_get?_bindAll hget with hm | hget
        · exact h.exists_default hm
        · unfold Keyed.get? at hget
          split at hget <;> cases hget
      have hgf : g = f := List.inj_on_of_nodup_map hd
        (List.mem_filter.mpr ⟨hg, by simp [hgv]⟩) (List.mem_filter.mpr ⟨hf, by simp [hw]⟩) hname
      rw [← hgv, hgf, hw]

end Defaults

/-! ## Slots -/

section Slots

variable {s : Settings} {name? : GuardKey → Option String} {L : Linker} {x cls : String}

-- A rule does for a field what the expression that is compiled for it does with what it reads.
def LoadsField (s : Settings) (name? : GuardKey → Option String) (L : Linker) (f : Field)
    (rule : LoadExpr.Rule) : Prop :=
  ∃ arg e le source, FieldExpr s name? f arg e ∧ LoadLinked L ["v1"] e le ∧
    source.Resolves ["v1"] arg ∧ le.Applies s.schema source rule

-- An assignment fills a slot from an element by a rule, or from a default if there is no element.
structure Assignment.Fills (S : Schema) (i : Nat) (default : Option Value) (rule : LoadExpr.Rule)
    (a : Assignment) : Prop where
  given   : ∀ callee (items : List Tree) t, items[i]? = some t →
    a.eval S callee [some (.array items)] = (rule callee (some t)).within (.index i)
  default : ∀ callee (items : List Tree) v, items[i]? = none → default = some v →
    a.eval S callee [some (.array items)] = pure v

theorem LoadSource.Resolves.eq_item {i : Nat} {source : LoadSource}
    (h : source.Resolves [x] (.item x i)) : source = .item 0 i := by
  cases h with
  | item hx => cases (Scope.idxOf?_innermost x []).symm.trans hx; rfl

theorem LoadExpr.Applies.fills {S : Schema} {i : Nat} {le : LoadExpr} {rule : Rule}
    (h : le.Applies S (.item 0 i) rule) (default : Option Value) :
    Assignment.Fills S i default rule ⟨.item 0 i, le, default⟩ where
  given callee items t ht := by
    have hread : LoadSource.read [some (.array items)] (.item 0 i) = pure (some t) :=
      congrArg pure ht
    simp only [Assignment.eval, h callee, LoadSource.feed, LoadSource.locate, hread]
    cases default <;> rfl
  default callee items v ht hd := by
    have hread : LoadSource.read [some (.array items)] (.item 0 i) = pure none :=
      congrArg pure ht
    simp only [Assignment.eval, LoadSource.locate, hread, hd]
    rfl

theorem Assigns.fills {i : Nat} {fs : List Field} {stmts : List Stmt} {as : List Assignment}
    (h : Assigns s name? (fun i _ => .item "v1" i) i fs stmts)
    (hl : AssignmentsLinked L "v1" i stmts as)
    (hd : ∀ f ∈ fs, ∀ {v}, DefaultLinked L (f.default.map fun _ => f.defaultName) v →
      v = f.default) :
    ∃ rules, List.Forall₂ (LoadsField s name? L) fs rules ∧ as.length = fs.length ∧
      ∀ j f rule, fs[j]? = some f → rules[j]? = some rule →
        ∃ a : Assignment, as[j]? = some a ∧ a.Fills s.schema (i + j) f.default rule := by
  induction h generalizing as with
  | nil =>
    cases hl
    exact ⟨[], .nil, rfl, nofun⟩
  | cons he _ ih =>
    cases hl with
    | cons hs hle hv hl =>
      have ⟨hf, hd⟩ := List.forall_mem_cons.mp hd
      have ⟨rules, hrules, hlen, hfills⟩ := ih hl hd
      have ⟨source, rule, hsource, happ⟩ := he.exists_loadRule s.schema hle
      refine ⟨rule :: rules, .cons ⟨_, _, _, source, he, hle, hsource, happ⟩ hrules,
        congrArg (· + 1) hlen, fun j f r hj hr => ?_⟩
      cases j with
      | zero =>
        cases hj
        cases hr
        cases hs.eq_item
        cases hsource.eq_item
        cases hf hv
        exact ⟨_, rfl, happ.fills _⟩
      | succ j =>
        have ⟨a, ha, hfill⟩ := hfills j f r hj hr
        exact ⟨a, ha, by rwa [Nat.add_right_comm, Nat.add_assoc] at hfill⟩

end Slots

/-! ## Procedures -/

section Procedures

variable {s : Settings} {name? : GuardKey → Option String} {L : Linker} {x cls : String}
  {slots : SlotTable}

theorem LoadBodyLinked.of_sequence {min len : Nat} {stmts : List Stmt} {q : LoadProcedure}
    (h : LoadBodyLinked L x
      (.beginSequence (.var x) min len :: (stmts ++ [.construct cls])) q) :
    q.expectation = some (.sequence min len) ∧ q.knownKeys = none ∧
      AssignmentsLinked L x 0 stmts q.assignments ∧
      ∃ t, Meaning.typeOf? L.locals cls = some t ∧ q.result = .construct t := by
  generalize hb : Stmt.beginSequence (.var x) min len :: (stmts ++ [.construct cls]) = body at h
  cases h with
  | @mk checks assigns last _ hc ha hr =>
    obtain ⟨_, expectation, keys, assignments, result⟩ := q
    dsimp only at hc ha hr ⊢
    generalize assignments.length = n at hr
    cases hc with
    | none => cases ha <;> simp at hb
    | mapping | knownKeys => simp at hb
    | sequence =>
      simp only [List.cons_append, List.nil_append, List.cons.injEq, Stmt.beginSequence.injEq] at hb
      obtain ⟨⟨_, rfl, rfl⟩, hb⟩ := hb
      obtain ⟨rfl, hlast⟩ := List.append_inj' hb rfl
      cases hlast
      cases hr with
      | record ht | tuple ht => exact ⟨rfl, rfl, ha, _, ht, rfl⟩

-- The load procedure of a positional record checks the length of an array, fills the slots from it
-- and builds the record.
structure LoadProcedure.Positional (S : Schema) (t : Ty) (fields : List Field)
    (rules : List LoadExpr.Rule) (q : LoadProcedure) : Prop where
  expectation : q.expectation = some (.sequence (requiredLength fields) fields.length)
  knownKeys   : q.knownKeys = none
  result      : q.result = .construct t
  slots       : q.assignments.length = fields.length
  fills       : ∀ i f rule, fields[i]? = some f → rules[i]? = some rule →
    ∃ a : Assignment, q.assignments[i]? = some a ∧ a.Fills S i f.default rule

theorem ProcedureFor.positional {p : Procedure} {q : LoadProcedure} {t : Ty} {fields : List Field}
    (h : ProcedureFor s name? (.origin t) p) (hload : s.direction = .load)
    (hq : Linker.loadProcedure ⟨s.schema, slots, p.locals⟩ p = .ok q) (hh : s.hook? t = none)
    (hs : s.schema.shape t = .record fields true) (hd : DefaultsDistinct fields) :
    ∃ rules, List.Forall₂ (LoadsField s name? ⟨s.schema, slots, p.locals⟩) fields rules ∧
      q.Positional s.schema t fields rules := by
  obtain ⟨_, x, hx, hlinked⟩ := Linker.loadProcedure_linked hq
  have hx : x = "v1" := by
    rw [h.signature, hload] at hx
    exact (Option.some.inj hx).symm
  subst hx
  have hcls := h.cls
  have hlocals := h.locals
  have hbody := h.body
  generalize p.body = body at hlinked hlocals hbody
  cases hbody with
  | loadMapping _ _ hs' | loadTuple _ _ hs' | union _ hs' => cases hs.symm.trans hs'
  | dumpMapping hdump | dumpSequence hdump | dumpTuple hdump => cases hload.symm.trans hdump
  | value hn => exact absurd ⟨hh, by simp [Schema.HasProcedure, hs]⟩ hn
  | @loadSequence _ fields' stmts _ _ hs' ha =>
    cases hs.symm.trans hs'
    obtain ⟨hexpect, hkeys, hassigns, t', ht, hresult⟩ := hlinked.of_sequence
    have ht : t = t' := by
      unfold Meaning.typeOf? at ht
      rw [show Keyed.get? "cls" p.locals = _ from hcls] at ht
      exact Option.some.inj ht
    subst ht
    simp only [bodyUses, GuardKey.subject, Schema.parts, hs, Stmt.usesAll] at hlocals
    have hdefault {f} := ha.default_of_linked (f := f) (L := ⟨s.schema, slots, p.locals⟩) hlocals hd
    obtain ⟨rules, hrules, hlen, hfills⟩ := ha.fills hassigns fun _ => hdefault
    exact ⟨rules, hrules, hexpect, hkeys, hresult, hlen,
      by simpa only [Nat.zero_add] using hfills⟩

end Procedures

/-! ## Arrays -/

-- The runs that give the values of the fields: each field with an element is loaded from it, and
-- each field after the last element is its default.
structure FillsFrom (fields : List Field) (rules : List Load.Rule) (items : List Tree)
    (runs : List (Run Value)) : Prop where
  length  : runs.length = fields.length
  given   : ∀ i (rule : Load.Rule) t, rules[i]? = some rule → items[i]? = some t →
    runs[i]? = some ((rule (some t)).within (.index i))
  default : ∀ i f, fields[i]? = some f → items.length ≤ i →
    ∃ v, f.default = some v ∧ runs[i]? = some (pure v)

-- What a load procedure does with arrays if it loads a positional record.
structure LoadsPositional (S : Schema) (t : Ty) (fields : List Field) (rules : List LoadExpr.Rule)
    (q : LoadProcedure) : Prop where
  passes  : ∀ items, (q.checkKind (some (.array items))).outcome = .done () ↔
    Fits fields items.length
  short   : ∀ callee items i f, fields[i]? = some f → items.length ≤ i → f.default = none →
    q.run S callee (some (.array items)) none =
      (Run.fault (.length (requiredLength fields) items.length)).through q.name
  long    : ∀ callee items, fields.length < items.length →
    q.run S callee (some (.array items)) none =
      (Run.fault (.length fields.length items.length)).through q.name
  fills   : ∀ callee items, Fits fields items.length →
    ∃ runs, FillsFrom fields (rules.map fun rule => rule callee) items runs ∧
      q.run S callee (some (.array items)) none =
        (do
          let values ← Run.forEach (fun _ run => run) 0 runs
          Run.ofExcept (S.construct t values)).through q.name
  missing : ∀ callee items e, (q.run S callee (some (.array items)) none).outcome = .failed e →
    e.fault = .missing → ∃ (i : Nat) (rule : LoadExpr.Rule) (x : Tree) (e' : ConversionError),
      rules[i]? = some rule ∧ items[i]? = some x ∧
        (rule callee (some x)).outcome = .failed e' ∧ e = (e'.within (.index i)).through q.name

namespace LoadProcedure.Positional

variable {S : Schema} {t : Ty} {fields : List Field} {rules : List LoadExpr.Rule}
  {q : LoadProcedure} (h : q.Positional S t fields rules)
include h

theorem run_eq (callee : Nat → Load.Rule) (items : List Tree) :
    q.run S callee (some (.array items)) none =
      (Load.checkSequence (requiredLength fields) fields.length (some (.array items)) >>=
        fun _ => q.fill S callee (some (.array items))).through q.name := by
  simp only [run, body_eq, checkKind, checkKnown, h.expectation, h.knownKeys, Expectation.check,
    Run.pure_bind]

theorem run_short (callee : Nat → Load.Rule) {items : List Tree}
    (hi : items.length < requiredLength fields) :
    q.run S callee (some (.array items)) none =
      (Run.fault (.length (requiredLength fields) items.length)).through q.name := by
  rw [h.run_eq, checkSequence_array_eq, if_pos hi]
  rfl

theorem run_long (callee : Nat → Load.Rule) {items : List Tree}
    (hi : fields.length < items.length) :
    q.run S callee (some (.array items)) none =
      (Run.fault (.length fields.length items.length)).through q.name := by
  have := requiredLength_le fields
  rw [h.run_eq, checkSequence_array_eq, if_neg (by omega), if_pos hi]
  rfl

theorem fillsFrom (hr : rules.length = fields.length) (callee : Nat → Load.Rule)
    {items : List Tree} (hfits : Fits fields items.length) :
    FillsFrom fields (rules.map fun rule => rule callee) items
      (q.assignments.map fun a => a.eval S callee [some (.array items)]) where
  length := by rw [List.length_map, h.slots]
  given i _ t hr ht := by
    rw [List.getElem?_map] at hr ⊢
    obtain ⟨rule, hrule, rfl⟩ := Option.map_eq_some_iff.mp hr
    have hi := (List.getElem?_eq_some_iff.mp ht).choose
    have ⟨a, ha, hfill⟩ := h.fills i _ rule
      (List.getElem?_eq_getElem (Nat.lt_of_lt_of_le hi hfits.left)) hrule
    rw [ha, Option.map_some, hfill.given callee items t ht]
  default i f hf hi := by
    have hlt := (List.getElem?_eq_some_iff.mp hf).choose
    have ⟨a, ha, hfill⟩ := h.fills i f _ hf (List.getElem?_eq_getElem (hr ▸ hlt))
    have ⟨v, hv⟩ := Option.isSome_iff_exists.mp <| hfits.right i f hf hi
    refine ⟨v, hv, ?_⟩
    rw [List.getElem?_map, ha, Option.map_some,
      hfill.default callee items v (List.getElem?_eq_none hi) hv]

theorem run_fits (callee : Nat → Load.Rule) {items : List Tree}
    (hfits : Fits fields items.length) :
    q.run S callee (some (.array items)) none =
      (do
        let values ← Run.forEach (fun _ run => run) 0
          (q.assignments.map fun a : Assignment => a.eval S callee [some (.array items)])
        Run.ofExcept (S.construct t values)).through q.name := by
  have ⟨hmin, hlen⟩ := fits_iff.mp hfits
  rw [h.run_eq, checkSequence_array_eq, if_neg (Nat.not_lt.mpr hmin),
    if_neg (Nat.not_lt.mpr hlen), Run.pure_bind, Run.forEach_map]
  simp only [fill, h.result]

-- What is missing is missing in an element.
theorem failsWith_missing (hr : rules.length = fields.length) (callee : Nat → Load.Rule)
    (items : List Tree) :
    (q.run S callee (some (.array items)) none).FailsWith fun e => e.fault = .missing →
      ∃ (i : Nat) (rule : LoadExpr.Rule) (x : Tree) (e' : ConversionError),
        rules[i]? = some rule ∧ items[i]? = some x ∧
          (rule callee (some x)).outcome = .failed e' ∧
          e = (e'.within (.index i)).through q.name := by
  by_cases hmin : items.length < requiredLength fields
  case pos => exact h.run_short callee hmin ▸ .through (.fault nofun)
  by_cases hlen : fields.length < items.length
  case pos => exact h.run_long callee hlen ▸ .through (.fault nofun)
  have hfits := fits_iff.mpr ⟨Nat.le_of_not_lt hmin, Nat.le_of_not_lt hlen⟩
  have hfills := h.fillsFrom hr callee hfits
  rw [h.run_fits callee hfits]
  refine .through <| .bind (.forEach 0 fun i run hrun => ?_) fun _ _ => .ofExcept fun _ => nofun
  by_cases hi : i < items.length
  case pos =>
    have hlt : i < rules.length := hr ▸ Nat.lt_of_lt_of_le hi hfits.left
    have hrule := List.getElem?_eq_getElem hlt
    have hgiven := hfills.given i _ items[i] (by rw [List.getElem?_map, hrule]; rfl)
      (List.getElem?_eq_getElem hi)
    rw [Option.some.inj <| hrun.symm.trans hgiven]
    refine Run.FailsWith.within fun e he _ => ⟨i, rules[i], items[i], e, hrule, ?_, he, rfl⟩
    exact List.getElem?_eq_getElem hi
  case neg =>
    have hlt := (List.getElem?_eq_some_iff.mp hrun).choose
    have hf := List.getElem?_eq_getElem (hfills.length ▸ hlt : i < fields.length)
    have ⟨v, _, hdefault⟩ := hfills.default i _ hf (Nat.le_of_not_lt hi)
    rw [Option.some.inj <| hrun.symm.trans hdefault]
    exact .pure v

theorem loadsPositional (hr : rules.length = fields.length) :
    LoadsPositional S t fields rules q where
  passes items := by
    simp only [checkKind, h.expectation, Expectation.check]
    rw [checkSequence_done_iff, fits_iff]
  short callee items i f hf hi hd :=
    h.run_short callee <| Nat.lt_of_le_of_lt hi <| lt_requiredLength hf hd
  long callee items hi := h.run_long callee hi
  fills callee items hfits := ⟨_, h.fillsFrom hr callee hfits, h.run_fits callee hfits⟩
  missing callee items := h.failsWith_missing hr callee items

end LoadProcedure.Positional

/-! ## Loaders -/

-- Four numbers, two of which can be left out. Only the last one can be left out of an array.
def readings : Schema where
  declarations := [
    ("Reading", {
      names := .qualified "app" "Reading"
      definition := .record [
        { name := "time", key := "time", ty := .scalar (.int .i64) },
        { name := "level", key := "level", ty := .scalar (.int .i32),
          default := some (.int .i32 1) },
        { name := "value", key := "value", ty := .scalar (.int .i32) },
        { name := "scale", key := "scale", ty := .scalar (.int .u8),
          default := some (.int .u8 10) }] true })]

-- A compiled loader takes those arrays for a positional record that have an element for each field
-- without a default and none without a field. Each field that has an element is loaded from it, and
-- each other one is its default.
theorem compileLoader_positional {S : Schema} {options : Options} {hooks : Hooks} {root t : Ty}
    {l : Loader} {fields : List Field}
    (hl : (compileLoader S options hooks root).result = .ok l)
    (ht : Reached ⟨S, .load, hooks, options⟩ root t) (hh : hooks.load? t = none)
    (hs : S.shape t = .record fields true) (hd : DefaultsDistinct fields) :
    ∃ name? locals rules, ∃ q ∈ l.unit.loads,
      name? (.origin t) = some q.name ∧
      (t = root → ∀ x, ∃ callee, l.load S x = q.run S callee (some x) none) ∧
      List.Forall₂ (LoadsField ⟨S, .load, hooks, options⟩ name? ⟨S, l.unit.slots, locals⟩) fields
        rules ∧
      LoadsPositional S t fields rules q := by
  have hhook : Settings.hook? ⟨S, .load, hooks, options⟩ t = none :=
    (Settings.load?_eq_none_iff rfl).mp hh
  have htarget : IsTarget ⟨S, .load, hooks, options⟩ root (.origin t) :=
    .procedure ht hhook <| by simp [Schema.HasProcedure, hs]
  obtain ⟨name?, p, i, q, hfor, hname, hq, hload, hentry⟩ := compileLoader_place hl htarget
  obtain ⟨rules, hrules, hpos⟩ := hfor.positional rfl hload hhook hs hd
  obtain ⟨hqn, _⟩ := Linker.loadProcedure_linked hload
  refine ⟨name?, p.locals, rules, q, List.mem_of_getElem? hq, hqn ▸ hname, fun hroot x => ?_,
    hrules, hpos.loadsPositional hrules.length_eq.symm⟩
  refine ⟨l.unit.callLoad S (l.unit.loadBudget (some x)), ?_⟩
  simp only [Loader.load, Loader.loadOr, CompiledUnit.load, ← hentry (hroot ▸ rfl), hq]

theorem compileLoader_positional_readings :
    ∃ l fields, (compileLoader readings {} {} (.declared "Reading")).result = .ok l ∧
      readings.shape (.declared "Reading") = .record fields true ∧ DefaultsDistinct fields ∧
      ∃ name? locals rules, ∃ q ∈ l.unit.loads,
        name? (.origin (.declared "Reading")) = some q.name ∧
        (Ty.declared "Reading" = .declared "Reading" →
          ∀ x, ∃ callee, l.load readings x = q.run readings callee (some x) none) ∧
        List.Forall₂ (LoadsField ⟨readings, .load, {}, {}⟩ name? ⟨readings, l.unit.slots, locals⟩)
          fields rules ∧
        LoadsPositional readings (.declared "Reading") fields rules q := by
  have ⟨l, hl⟩ := Compiled.exists_ok (x := compileLoader readings {} {} (.declared "Reading"))
    (by decide +kernel)
  refine ⟨l, _, hl, rfl, ?_, compileLoader_positional hl .root rfl rfl ?_⟩ <;> decide +kernel

end TreeCodec
