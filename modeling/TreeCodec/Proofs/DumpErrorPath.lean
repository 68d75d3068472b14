import TreeCodec.Proofs.DumpUnit
import TreeCodec.Proofs.Generated
import TreeCodec.Proofs.LinkMeaning
import TreeCodec.Proofs.Refusal

/-!
The paths of errors of dump hooks.

An error tells of a field by its name, whatever stands for the field in the tree that is written. So
its path leads to the place in the tree exactly if it passes through no field of a positional record
and through none whose key is another one than its name.
-/
namespace TreeCodec

/-! ## Expressions -/

section Expressions

variable {s : Settings} {name? : GuardKey → Option String} {ps : List Procedure}
variable {locals : Locals} {callee : String → Dump.Rule}

-- What the expressions of a procedure are evaluated with.
structure Telling (s : Settings) (ps : List Procedure) (locals : Locals)
    (callee : String → Dump.Rule) (parts : List (String × Expr)) : Prop where
  calls : ∀ name, Tells s.schema s.hooks ps (callee name)
  hooks : ∀ name hook, Keyed.get? name locals = some (.dumpHook hook) →
    ∃ t, s.hooks.dump? t = some hook
  keys : ∀ part ∈ parts, ∀ env k tree key,
    (Meaning.dumpExpr s.schema locals callee part.2 ((part.1, k) :: env)).outcome = .done tree →
    tree.keyText = .ok key → Renders s.schema ps k key

theorem Telling.mono {parts parts' : List (String × Expr)}
    (h : Telling s ps locals callee parts) (hp : parts' ⊆ parts) :
    Telling s ps locals callee parts' :=
  ⟨h.calls, h.hooks, fun part hm => h.keys part (hp hm)⟩

theorem Telling.leaf {parts : List (String × Expr)} (h : Telling s ps locals callee parts)
    (helper : String) : Tells s.schema s.hooks ps (Meaning.dumpLeaf s.schema locals helper) := by
  unfold Meaning.dumpLeaf
  split
  case h_1 =>
    split
    case h_1 => exact tells_scalar _
    case h_2 => exact tells_tree
    case h_3 => exact fun _ => .unfinished
  case h_2 hget =>
    obtain ⟨_, ht⟩ := h.hooks _ _ hget
    exact tells_hook ht
  case h_3 => exact fun _ => .unfinished

theorem Meaning.feedValue_var {S : Schema} {x : String} {v : Value} {env : Env Value}
    (rule : Dump.Rule) : feedValue S locals ((x, v) :: env) (.var x) rule = rule v := by
  simp [feedValue, locate, readValue, lookup, Keyed.get?]

-- An expression feeds what its operand reads to a rule, or it has no meaning.
theorem ExprFor.failsWith {t : Ty} {arg : Operand} {e : Expr} (h : ExprFor s name? t arg e)
    (ht : Telling s ps locals callee e.keyParts) (env : Meaning.Env Value)
    {E : ConversionError → Prop}
    (hE : ∀ rule, Tells s.schema s.hooks ps rule →
      (Meaning.feedValue s.schema locals env arg rule).FailsWith E) :
    (Meaning.dumpExpr s.schema locals callee e env).FailsWith E := by
  have hvar {x : String} {e : Expr} {env : Meaning.Env Value}
      (he : ∀ v E, (∀ rule, Tells s.schema s.hooks ps rule →
          (Meaning.feedValue s.schema locals ((x, v) :: env) (.var x) rule).FailsWith E) →
        (Meaning.dumpExpr s.schema locals callee e ((x, v) :: env)).FailsWith E) :
      Tells s.schema s.hooks ps fun v =>
        Meaning.dumpExpr s.schema locals callee e ((x, v) :: env) := by
    refine fun v => he v _ fun rule hr => ?_
    rw [Meaning.feedValue_var]
    exact hr v
  induction h generalizing env E with
  | hook | leaf => exact hE _ <| ht.leaf _
  | call => exact hE _ <| ht.calls _
  | optional _ _ ih =>
    unfold Meaning.dumpExpr
    split
    case h_1 => exact hE _ <| tells_optional <| hvar fun v E hE => ih ht _ hE
    case h_2 => exact .unfinished
  | boxed _ _ ih =>
    unfold Meaning.dumpExpr
    split
    case h_1 => exact hE _ <| tells_boxed <| hvar fun v E hE => ih ht _ hE
    case h_2 => exact .unfinished
  | list _ _ ih =>
    unfold Meaning.dumpExpr
    split
    case h_1 => exact hE _ <| tells_list <| hvar fun v E hE => ih ht _ hE
    case h_2 => exact .unfinished
  | map _ _ _ ihk ih =>
    have hkey := ht.keys _ (List.mem_cons_self ..) env
    have htk := ht.mono <| List.subset_cons_of_subset _ <| List.subset_append_left ..
    have htv := ht.mono <| List.subset_cons_of_subset _ <| List.subset_append_right ..
    unfold Meaning.dumpExpr
    split
    case h_1 =>
      exact hE _ <| tells_map (hvar fun v E hE => ihk htk _ hE) hkey <|
        hvar fun v E hE => ih htv _ hE
    case h_2 => exact .unfinished

-- An expression over a variable is a rule for what the variable stands for.
theorem ExprFor.tells {t : Ty} {x : String} {e : Expr} (h : ExprFor s name? t (.var x) e)
    (ht : Telling s ps locals callee e.keyParts) (env : Meaning.Env Value) :
    Tells s.schema s.hooks ps fun v =>
      Meaning.dumpExpr s.schema locals callee e ((x, v) :: env) := by
  refine fun v => h.failsWith ht _ fun rule hr => ?_
  rw [Meaning.feedValue_var]
  exact hr v

theorem Alternatives.tells {x : String} {variants : List Variant} {es : List Expr}
    (h : Alternatives s name? x variants es)
    (ht : Telling s ps locals callee (Expr.keyPartsAll es)) (env : Meaning.Env Value) :
    ∀ rule ∈ Meaning.dumpExprs s.schema locals callee x es env, Tells s.schema s.hooks ps rule := by
  induction h with
  | nil => nofun
  | cons he _ ih =>
    have hhead := he.tells (ht.mono <| List.subset_append_left ..) env
    exact List.forall_mem_cons.mpr ⟨hhead, ih <| ht.mono <| List.subset_append_right ..⟩

theorem FieldExpr.failsWith {f : Field} {arg : Operand} {e : Expr} (h : FieldExpr s name? f arg e)
    (ht : Telling s ps locals callee e.keyParts) (env : Meaning.Env Value)
    {E : ConversionError → Prop}
    (hE : ∀ rule, Tells s.schema s.hooks ps rule →
      (Meaning.feedValue s.schema locals env arg rule).FailsWith E) :
    (Meaning.dumpExpr s.schema locals callee e env).FailsWith E := by
  cases h with
  | slot => exact hE _ <| ht.calls _
  | inline _ he => exact he.failsWith ht env hE

end Expressions

/-! ## Bodies -/

section Bodies

variable {s : Settings} {name? : GuardKey → Option String} {ps : List Procedure}
variable {locals : Locals} {callee : String → Dump.Rule} {t : Ty} {v : Value}

theorem Run.FailsWith.part {E : ConversionError → Prop} {found : Except SchemaError (Option Value)}
    {rule : Dump.Rule} (hE : ∀ f, (∀ message, f ≠ .hook message) → E { fault := f })
    (hf : ∀ w, found = .ok (some w) → (rule w).FailsWith E) :
    (Dump.part found >>= rule).FailsWith E := by
  unfold Dump.part
  rcases found with e | _ | w
  · exact .bind (.bind (.fault <| hE _ nofun) nofun) nofun
  · exact .bind (.bind (.pure _) fun _ ho => by cases ho; exact .fault <| hE _ nofun) nofun
  · exact hf w rfl

-- A field that is refused is told of by its name.
theorem Meaning.feedValue_attr {fields : List Field} {positional : Bool} {i : Nat} {f : Field}
    {rule : Dump.Rule} (hcls : typeOf? locals "cls" = some t)
    (hs : s.schema.shape t = .record fields positional) (hf : fields[i]? = some f)
    (hr : Tells s.schema s.hooks ps rule) :
    (feedValue s.schema locals [("o", v)] (.attr "o" "cls" i f.name) rule).FailsWith
      (Told s.schema s.hooks ps v) := by
  simp only [feedValue, locate, readValue, hcls, lookup, Keyed.get?, if_true]
  refine .within <| .part (fun _ hn => .of_fault hn) fun w hw => ?_
  obtain ⟨rfl, id, vs, rfl, hi⟩ := Schema.getField_eq_ok_iff.mp hw
  exact (hr w).imp fun _ => .step fun _ _ _ => .field hs hf hi

theorem Meaning.feedValue_element {i : Nat} {rule : Dump.Rule}
    (hcls : typeOf? locals "cls" = some t) (hr : Tells s.schema s.hooks ps rule) :
    (feedValue s.schema locals [("o", v)] (.element "o" "cls" i) rule).FailsWith
      (Told s.schema s.hooks ps v) := by
  simp only [feedValue, locate, readValue, hcls, lookup, Keyed.get?, if_true]
  refine .within <| .part (fun _ hn => .of_fault hn) fun w hw => ?_
  obtain ⟨_, vs, rfl, hi⟩ := Schema.getElement_eq_ok_iff.mp hw
  exact (hr w).imp fun _ => .step fun _ _ _ => .element hi

-- What is put for a field fails as the expression of the field, or as what comes after it.
def FailsAs (s : Settings) (locals : Locals) (callee : String → Dump.Rule)
    (put : Field → Expr → Stmt) : Prop :=
  ∀ f e, (put f e).exprs = [e] ∧ ∀ E env rest output,
    (Meaning.dumpExpr s.schema locals callee e env).FailsWith E →
    (∀ output, (Meaning.dumpBody s.schema locals callee env output rest).FailsWith E) →
    (Meaning.dumpBody s.schema locals callee env output (put f e :: rest)).FailsWith E

theorem failsAs_insert : FailsAs s locals callee fun f e => .insert f.key e s.options.omitNull := by
  refine fun f e => ⟨rfl, fun E env rest output he hrest => ?_⟩
  dsimp only [Meaning.dumpBody]
  split
  case h_1 => exact he.bind fun _ _ => hrest _
  case h_2 => exact .unfinished

theorem failsAs_push : FailsAs s locals callee fun _ e => .push e := by
  refine fun f e => ⟨rfl, fun E env rest output he hrest => ?_⟩
  dsimp only [Meaning.dumpBody]
  split
  case h_1 => exact he.bind fun _ _ => hrest _
  case h_2 => exact .unfinished

theorem Meaning.returnOutput_failsWith {S : Schema} {env : Env Value} {output : Option Tree}
    {E : ConversionError → Prop} :
    (dumpBody S locals callee env output [.returnOutput]).FailsWith E := by
  cases output with
  | none => exact .unfinished
  | some t => exact .pure t

-- Fields are fed to their rules one after the other, the first of them being number `i`.
theorem Outputs.failsWith {source : Nat → Field → Operand} {put : Field → Expr → Stmt} {i : Nat}
    {fs : List Field} {stmts : List Stmt} {E : ConversionError → Prop} {env : Meaning.Env Value}
    (hput : FailsAs s locals callee put) (h : Outputs s name? source put i fs stmts)
    (ht : Telling s ps locals callee (stmts.flatMap Stmt.keyParts))
    (hE : ∀ j f rule, fs[j]? = some f → Tells s.schema s.hooks ps rule →
      (Meaning.feedValue s.schema locals env (source (i + j) f) rule).FailsWith E)
    (output : Option Tree) :
    (Meaning.dumpBody s.schema locals callee env output
      (stmts ++ [.returnOutput])).FailsWith E := by
  induction h generalizing output with
  | nil => exact Meaning.returnOutput_failsWith
  | @cons i f fs e stmts he _ ih =>
    have ⟨hexprs, hfails⟩ := hput f e
    simp only [List.flatMap_cons, Stmt.keyParts, hexprs, List.flatMap_nil, List.append_nil] at ht
    refine hfails _ _ _ _ ?head fun output => ih ?parts ?rest output
    case head =>
      exact he.failsWith (ht.mono <| List.subset_append_left ..) env fun rule => hE 0 f rule rfl
    case parts => exact ht.mono <| List.subset_append_right ..
    case rest =>
      intro j g rule hg
      rw [Nat.add_right_comm]
      exact hE (j + 1) g rule hg

theorem BodyFor.failsWith {key : GuardKey} {body : List Stmt} (h : BodyFor s name? key body)
    (hd : s.direction = .dump) (hcls : Meaning.typeOf? locals "cls" = some key.subject)
    (ht : Telling s ps locals callee (body.flatMap Stmt.keyParts)) :
    (Meaning.dumpBody s.schema locals callee [("o", v)] none body).FailsWith
      (Told s.schema s.hooks ps v) := by
  have hload (h : s.direction = .load) : False := nomatch hd.symm.trans h
  cases h with
  | loadMapping h | loadSequence h | loadTuple h => exact (hload h).elim
  | dumpMapping _ _ hs ho =>
    refine ho.failsWith failsAs_insert (ht.mono ?_) (fun j f rule hf hr => ?_) _
    · simp
    · rw [Nat.zero_add]
      exact Meaning.feedValue_attr hcls hs hf hr
  | dumpSequence _ _ hs ho =>
    refine ho.failsWith failsAs_push (ht.mono ?_) (fun j f rule hf hr => ?_) _
    · simp
    · rw [Nat.zero_add]
      exact Meaning.feedValue_attr hcls hs hf hr
  | dumpTuple _ _ hs ho =>
    refine ho.failsWith failsAs_push (ht.mono ?_) (fun j f rule _ hr => ?_) _
    · simp
    · rw [Nat.zero_add]
      exact Meaning.feedValue_element hcls hr
  | union _ _ ha =>
    simp only [List.flatMap_singleton, Stmt.keyParts, Stmt.exprs, Expr.keyParts] at ht
    rw [hd]
    unfold Meaning.dumpBody Meaning.dumpExpr
    split
    case h_1 =>
      rw [Direction.param, Meaning.feedValue_var]
      exact tells_union (ha.tells ht _) v
    case h_2 => exact .unfinished
  | value _ he | slot he =>
    rw [hd] at he
    refine he.tells (ht.mono ?_) [] v
    simp [Stmt.keyParts, Stmt.exprs]

end Bodies

/-! ## Procedures -/

section Procedures

variable {s : Settings} {name? : GuardKey → Option String} {key : GuardKey} {p : Procedure}

-- The hooks that a procedure is bound to are those of types.
theorem ProcedureFor.exists_dump? (h : ProcedureFor s name? key p) (hd : s.direction = .dump)
    {name : String} {hook : DumpHook} (hget : Keyed.get? name p.locals = some (.dumpHook hook)) :
    ∃ t, s.hooks.dump? t = some hook := by
  rw [h.locals] at hget
  rcases Locals.mem_of_get?_bindAll hget with hm | hcls
  case inl =>
    obtain ⟨_, _, hfit⟩ := h.body.kinded _ hm
    cases hfit with
    | @hook t _ hh =>
      rw [Settings.hook?, hd] at hh
      obtain ⟨hook', ht, he⟩ := Option.map_eq_some_iff.mp hh
      cases he
      exact ⟨t, ht⟩
  case inr =>
    unfold Keyed.get? at hcls
    split at hcls <;> cases hcls

variable {ps : List Procedure}

theorem ProcedureFor.tells (h : ProcedureFor s name? key p) (hd : s.direction = .dump)
    (hp : p ∈ ps) {n : Nat}
    (hcall : ∀ name, Tells s.schema s.hooks ps (Meaning.callDump s.schema ps n name)) :
    Tells s.schema s.hooks ps (Meaning.runDump s.schema (Meaning.callDump s.schema ps n) p) := by
  intro v
  have ht : Telling s ps p.locals (Meaning.callDump s.schema ps n) p.keyParts :=
    ⟨hcall, fun _ _ => h.exists_dump? hd, fun part hm env k tree key htree hkey =>
      ⟨p, hp, part, hm, env, n, tree, htree, hkey⟩⟩
  have hcls : Meaning.typeOf? p.locals "cls" = some key.subject := by
    unfold Meaning.typeOf?
    rw [show Keyed.get? "cls" p.locals = _ from h.cls]
  have hparam : p.signature.valueParam? = some "o" := by
    rw [h.signature, hd]
    rfl
  simp only [Meaning.runDump, hparam]
  exact .through <| (h.body.failsWith hd hcls ht).imp fun _ => id

-- The calls that are left go down with each procedure that is entered.
theorem Compilation.tells {root : Ty} {source : Source} (hc : Compilation s root source name?)
    (hd : s.direction = .dump) (n : Nat) (name : String) :
    Tells s.schema s.hooks source.builder.sealed
      (Meaning.callDump s.schema source.builder.sealed n name) := by
  induction n generalizing name with
  | zero => exact fun _ => .unfinished
  | succ n ih =>
    intro v
    unfold Meaning.callDump
    split
    case h_1 p hp =>
      have hm := List.mem_of_find?_eq_some hp
      have ⟨_, _, hfor⟩ := hc.made p hm
      exact hfor.tells hd hm ih v
    case h_2 => exact .unfinished

end Procedures

theorem Run.finished_of_failed {α : Type} {x : Run α} {e : ConversionError}
    (h : x.outcome = .failed e) : x.Finished := by
  simp [Finished, Outcome.Finished, h]

-- Where a hook refused a value, the error tells of the fields, elements, items and entries that the
-- value stands within. That is its place in the tree exactly if the fields are all told of as they
-- are written.
theorem dump_hook_error_path {S : Schema} {options : Options} {hooks : Hooks} {root : Ty}
    {source : Source} {d : Dumper}
    (hs : (compileProcedures S options hooks .dump root).result = .ok source)
    (hd : (compileDumper S options hooks root).result = .ok d)
    {v : Value} {e : ConversionError} (he : (d.dump S v).outcome = .failed e)
    {message : String} (hm : e.fault = .hook message) :
    ∃ inKey steps w t hook, Stands S source.builder.sealed inKey v steps w ∧
      hooks.dump? t = some hook ∧ hook w = .error message ∧ e.path = steps.map DumpStep.told ∧
      (e.path = steps.map DumpStep.written ↔ ∀ s ∈ steps, s.Faithful) := by
  obtain ⟨source', hs', hlink, hentry, _⟩ := compileDumper_linked hd
  cases hs.symm.trans hs'
  obtain ⟨name?, hc⟩ := compileProcedures_compilation hs
  have hl := Builder.linked_of_link hlink
  unfold Dumper.dump at he
  split at he
  case isFalse =>
    cases he
    nomatch hm
  case isTrue =>
    obtain ⟨p, hp, hname⟩ := hl.procedure_of_slot (d := .dump) (SlotTable.get?_of_dump? hentry)
    obtain ⟨n, hn⟩ := ((hl.dumpsAs hp).run v _ (Run.finished_of_failed he)).mp rfl
    have hcall : Meaning.callDump S source.builder.sealed (n + 1) source.entry v =
        d.unit.dump S d.entry v := by
      rw [Meaning.callDump, hname]
      exact hn
    have htold := hc.tells rfl (n + 1) source.entry v e <| (congrArg Run.outcome hcall).trans he
    obtain ⟨inKey, steps, w, t, hook, hstands, ht, hw, hpath⟩ := htold message hm
    refine ⟨inKey, steps, w, t, hook, hstands, ht, hw, hpath, ?_⟩
    rw [hpath]
    exact DumpStep.map_told_eq_iff steps

-- A stamp has no converters of its own, and the key of a visit is another one than its name.
def visits : Schema where
  declarations := [
    ("Stamp", { names := .qualified "app" "Stamp", definition := .foreign }),
    ("Visit", {
      names := .qualified "app" "Visit"
      definition := .record [{ name := "at", key := "when", ty := .declared "Stamp" }] false }),
    ("Visits", {
      names := .qualified "app" "Visits"
      definition := .record [
        { name := "stamps", key := "stamps", ty := .list .vector (.declared "Stamp") }] false })]

def noStamps : Hooks where
  dump := [(.declared "Stamp", fun _ => .error "no")]

def stamp : Value := .tree (.declared "Stamp") .null

def twoStamps : Value := .record "Visits" [.list .vector (.declared "Stamp") [stamp, stamp]]

theorem dump_hook_error_path_stamps :
    ∃ source d e,
      (compileProcedures visits {} noStamps .dump (.declared "Visits")).result = .ok source ∧
      (compileDumper visits {} noStamps (.declared "Visits")).result = .ok d ∧
      (d.dump visits twoStamps).outcome = .failed e ∧ e.fault = .hook "no" ∧
      e.path = [.key "stamps", .index 0] ∧
      ∃ inKey steps w t hook, Stands visits source.builder.sealed inKey twoStamps steps w ∧
        noStamps.dump? t = some hook ∧ hook w = .error "no" ∧
        e.path = steps.map DumpStep.told ∧
        (e.path = steps.map DumpStep.written ↔ ∀ s ∈ steps, s.Faithful) := by
  have hdump : ((compileDumper visits {} noStamps (.declared "Visits")).result.map fun d =>
      (d.dump visits twoStamps).outcome.failure?).toOption =
      some (some (.hook "no", [.key "stamps", .index 0])) := by
    decide +kernel
  have ⟨d, hd⟩ := Compiled.exists_ok (x := compileDumper visits {} noStamps (.declared "Visits"))
    (by decide +kernel)
  have ⟨source, hs, _⟩ := compileDumper_linked hd
  rw [hd] at hdump
  have ⟨e, he, hf, hp⟩ := Outcome.exists_failed_of_failure? (Option.some.inj hdump)
  exact ⟨source, d, e, hs, hd, he, hf, hp, dump_hook_error_path hs hd he hf⟩

-- The stamp of a visit is written under `when`, and the error tells that it stands under `at`.
theorem dump_hook_error_path_renamed :
    ∃ source d e,
      (compileProcedures visits {} noStamps .dump (.declared "Visit")).result = .ok source ∧
      (compileDumper visits {} noStamps (.declared "Visit")).result = .ok d ∧
      (d.dump visits (.record "Visit" [stamp])).outcome = .failed e ∧ e.fault = .hook "no" ∧
      e.path = [.key "at"] ∧
      ∀ inKey steps w, Stands visits source.builder.sealed inKey (.record "Visit" [stamp]) steps w →
        e.path ≠ steps.map DumpStep.written := by
  have hdump : ((compileDumper visits {} noStamps (.declared "Visit")).result.map fun d =>
      (d.dump visits (.record "Visit" [stamp])).outcome.failure?).toOption =
      some (some (.hook "no", [.key "at"])) := by
    decide +kernel
  have ⟨d, hd⟩ := Compiled.exists_ok (x := compileDumper visits {} noStamps (.declared "Visit"))
    (by decide +kernel)
  have ⟨source, hs, _⟩ := compileDumper_linked hd
  rw [hd] at hdump
  have ⟨e, he, hf, hp⟩ := Outcome.exists_failed_of_failure? (Option.some.inj hdump)
  refine ⟨source, d, e, hs, hd, he, hf, hp, fun inKey steps w hstands => ?_⟩
  rw [hp]
  cases hstands with
  | here => nofun
  | @field _ _ _ fields positional f i u _ p hshape hfield _ _ =>
    -- The only field of a visit is written under its key.
    have hfields : fields = [{ name := "at", key := "when", ty := .declared "Stamp" }] ∧
        positional = false := by
      have := hshape.symm.trans (show visits.shape (.declared "Visit") = .record _ _ from rfl)
      cases this
      exact ⟨rfl, rfl⟩
    obtain ⟨rfl, rfl⟩ := hfields
    have hf : f = { name := "at", key := "when", ty := .declared "Stamp" } :=
      List.mem_singleton.mp <| List.mem_of_getElem? hfield
    subst hf
    simp [DumpStep.written]

end TreeCodec
