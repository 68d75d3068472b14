import TreeCodec.Proofs.DumpCalls
import TreeCodec.Proofs.LoadMeaning

/-!
A linked dump procedure does what the procedure means.
-/
namespace TreeCodec

/-! ## Sources -/

namespace DumpSource

def up : DumpSource → Nat
  | var up | attr up _ _ _ | element up _ _ => up

variable {L : Linker} {scope : Scope} {arg : Operand} {s : DumpSource}

theorem Resolves.up_lt (h : s.Resolves L scope arg) : s.up < scope.length := by
  cases h with
  | var h | attr h | element h => exact (List.idxOf?_eq_some_iff.mp h).choose

theorem Resolves.locate_eq {α : Type} (h : s.Resolves L scope arg) (r : Run α) :
    s.locate r = Meaning.locate r arg := by
  cases h <;> rfl

variable {env : Meaning.Env Value} (he : env.map Prod.fst = scope)
include he

theorem Resolves.read_eq (h : s.Resolves L scope arg) :
    s.read L.schema (env.map Prod.snd) = Meaning.readValue L.schema L.locals env arg := by
  subst he
  cases h with
  | var h =>
    have ⟨v, hv, hup⟩ := Keyed.get?_of_idxOf? h
    simp only [read, lookup, Meaning.readValue, Meaning.lookup_eq hv, hup]
  | attr h ht | element h ht =>
    have ⟨v, hv, hup⟩ := Keyed.get?_of_idxOf? h
    simp only [read, lookup, Meaning.readValue, Meaning.lookup_eq hv, hup, ht]

theorem Resolves.feed_eq (h : s.Resolves L scope arg) (rule : Dump.Rule) :
    s.feed L.schema (env.map Prod.snd) rule =
      Meaning.feedValue L.schema L.locals env arg rule := by
  unfold feed Meaning.feedValue
  rw [h.locate_eq, h.read_eq he]

end DumpSource

/-! ## Expressions -/

namespace DumpExpr

mutual

-- The procedures that an expression calls.
def callees : DumpExpr → List Nat
  | scalar .. | tree .. | hook .. => []
  | call _ index => [index]
  | optional _ _ e | boxed _ _ e | list _ _ e => callees e
  | map _ _ _ k v => callees k ++ callees v
  | union _ _ es => calleesList es

def calleesList : List DumpExpr → List Nat
  | [] => []
  | e :: es => callees e ++ calleesList es

end

mutual

-- Every source reads from one of as many binders as there are around the expression.
def InScope : Nat → DumpExpr → Prop
  | n, scalar s _ | n, tree s _ | n, hook s _ | n, call s _ => s.up < n
  | n, optional s _ e | n, boxed s _ e | n, list s _ e => s.up < n ∧ InScope (n + 1) e
  | n, map s _ _ k v => s.up < n ∧ InScope (n + 1) k ∧ InScope (n + 1) v
  | n, union s _ es => s.up < n ∧ AllInScope (n + 1) es

def AllInScope : Nat → List DumpExpr → Prop
  | _, [] => True
  | n, e :: es => InScope n e ∧ AllInScope n es

end

end DumpExpr

-- Names of called dump procedures with the places that they stand for.
def Linker.Dumps (L : Linker) : List String → List Nat → Prop :=
  List.Forall₂ fun name i => Keyed.get? name L.slots = some (.dump i)

theorem Linker.Dumps.append {L : Linker} {names names' : List String} {is js : List Nat}
    (h : L.Dumps names is) (h' : L.Dumps names' js) : L.Dumps (names ++ names') (is ++ js) :=
  List.rel_append h h'

def Linker.DumpsAlike (L : Linker) (place : Nat → Dump.Rule) (callee : String → Dump.Rule) : Prop :=
  ∀ name i, Keyed.get? name L.slots = some (.dump i) → place i = callee name

variable {L : Linker}

mutual

theorem DumpLinked.inScope : ∀ {scope : Scope} {e : Expr} {de : DumpExpr},
    DumpLinked L scope e de → de.InScope scope.length
  | _, _, _, .scalar hs _ _ | _, _, _, .tree hs _ _ | _, _, _, .hook hs _ | _, _, _, .call hs _ =>
    hs.up_lt
  | _, _, _, .optional hs _ h | _, _, _, .boxed hs _ h | _, _, _, .list hs _ h =>
    ⟨hs.up_lt, h.inScope⟩
  | _, _, _, .map hs _ hk hv => ⟨hs.up_lt, hk.inScope, hv.inScope⟩
  | _, _, _, .union hs _ _ h => ⟨hs.up_lt, h.inScope⟩

theorem DumpAllLinked.inScope : ∀ {scope : Scope} {es : List Expr} {des : List DumpExpr},
    DumpAllLinked L scope es des → DumpExpr.AllInScope scope.length des
  | _, _, _, .nil => trivial
  | _, _, _, .cons h hs => ⟨h.inScope, hs.inScope⟩

end

mutual

theorem DumpLinked.calls : ∀ {scope : Scope} {e : Expr} {de : DumpExpr},
    DumpLinked L scope e de → L.Dumps e.calls de.callees
  | _, _, _, .scalar .. | _, _, _, .tree .. | _, _, _, .hook .. => .nil
  | _, _, _, .call _ h => .cons h .nil
  | _, _, _, .optional _ _ h | _, _, _, .boxed _ _ h | _, _, _, .list _ _ h => h.calls
  | _, _, _, .map _ _ hk hv => hk.calls.append hv.calls
  | _, _, _, .union _ _ _ h => h.calls

theorem DumpAllLinked.calls : ∀ {scope : Scope} {es : List Expr} {des : List DumpExpr},
    DumpAllLinked L scope es des → L.Dumps (Expr.callsList es) (DumpExpr.calleesList des)
  | _, _, _, .nil => .nil
  | _, _, _, .cons h hs => h.calls.append hs.calls

end

variable {place : Nat → Dump.Rule} {callee : String → Dump.Rule}

mutual

theorem DumpLinked.eval_eq (hc : L.DumpsAlike place callee) : ∀ {scope : Scope} {e : Expr}
    {de : DumpExpr}, DumpLinked L scope e de → ∀ env : Meaning.Env Value, env.map Prod.fst = scope →
    de.eval L.schema place (env.map Prod.snd) = Meaning.dumpExpr L.schema L.locals callee e env
  | _, _, _, .scalar hs hb hk, env, he => by
    simp only [DumpExpr.eval, Meaning.dumpExpr, Meaning.dumpLeaf, hs.feed_eq he, hb, hk]
  | _, _, _, .tree hs hb hk, env, he => by
    simp only [DumpExpr.eval, Meaning.dumpExpr, Meaning.dumpLeaf, hs.feed_eq he, hb, hk]
  | _, _, _, .hook hs hb, env, he => by
    simp only [DumpExpr.eval, Meaning.dumpExpr, Meaning.dumpLeaf, hs.feed_eq he, hb]
  | _, _, _, .call hs hi, env, he => by
    simp only [DumpExpr.eval, Meaning.dumpExpr, hs.feed_eq he, hc _ _ hi]
  | _, _, _, .optional (x := x) hs hv h, env, he => by
    simp only [DumpExpr.eval, Meaning.dumpExpr, hs.feed_eq he, hv]
    exact congrArg _ <| congrArg _ <| funext fun v =>
      h.eval_eq hc ((x, v) :: env) <| congrArg (x :: ·) he
  | _, _, _, .boxed (x := x) hs hv h, env, he => by
    simp only [DumpExpr.eval, Meaning.dumpExpr, hs.feed_eq he, hv]
    exact congrArg _ <| congrArg _ <| funext fun v =>
      h.eval_eq hc ((x, v) :: env) <| congrArg (x :: ·) he
  | _, _, _, .list (x := x) hs hv h, env, he => by
    simp only [DumpExpr.eval, Meaning.dumpExpr, hs.feed_eq he, hv]
    exact congrArg _ <| congrArg _ <| funext fun v =>
      h.eval_eq hc ((x, v) :: env) <| congrArg (x :: ·) he
  | _, _, _, .map (x := x) (y := y) hs hv hk h, env, he => by
    simp only [DumpExpr.eval, Meaning.dumpExpr, hs.feed_eq he, hv]
    exact congrArg _ <| congrArg₂ _
      (funext fun v => hk.eval_eq hc ((x, v) :: env) <| congrArg (x :: ·) he)
      (funext fun v => h.eval_eq hc ((y, v) :: env) <| congrArg (y :: ·) he)
  | _, _, _, .union (x := x) hs hv _ h, env, he => by
    simp only [DumpExpr.eval, Meaning.dumpExpr, hs.feed_eq he, hv]
    exact congrArg _ <| congrArg _ <| h.eval_eq hc x env <| congrArg (x :: ·) he

theorem DumpAllLinked.eval_eq (hc : L.DumpsAlike place callee) : ∀ {scope : Scope}
    {es : List Expr} {des : List DumpExpr}, DumpAllLinked L scope es des →
    ∀ (x : String) (env : Meaning.Env Value), x :: env.map Prod.fst = scope →
    DumpExpr.evalList L.schema place des (env.map Prod.snd) =
      Meaning.dumpExprs L.schema L.locals callee x es env
  | _, _, _, .nil, _, _, _ => rfl
  | _, _, _, .cons h hs, x, env, he => by
    simp only [DumpExpr.evalList, Meaning.dumpExprs]
    exact congrArg₂ _ (funext fun v => h.eval_eq hc ((x, v) :: env) he) (hs.eval_eq hc x env he)

end

/-! ## Procedures -/

variable {x : String} {v : Value} {stmts : List Stmt}

theorem InsertionsLinked.dumpBody_eq (hc : L.DumpsAlike place callee) {is : List Insertion}
    (h : InsertionsLinked L x stmts is) (entries : List (String × Tree)) :
    Meaning.dumpBody L.schema L.locals callee [(x, v)] (some (.object entries))
        (stmts ++ [.returnOutput]) =
      DumpProcedure.insertAll L.schema place [v] entries is >>= fun es => pure (.object es) := by
  induction h generalizing entries with
  | nil => rfl
  | cons he _ ih =>
    simp only [List.cons_append, Meaning.dumpBody, DumpProcedure.insertAll, Run.bind_assoc]
    rw [← he.eval_eq hc [(x, v)] rfl]
    exact congrArg _ <| funext fun t => ih _

theorem PushesLinked.dumpBody_eq (hc : L.DumpsAlike place callee) {des : List DumpExpr}
    (h : PushesLinked L x stmts des) (i : Nat) (items : List Tree) :
    Meaning.dumpBody L.schema L.locals callee [(x, v)] (some (.array items))
        (stmts ++ [.returnOutput]) =
      Run.forEach (fun _ e => e.eval L.schema place [v]) i des >>= fun ts =>
        pure (.array (items ++ ts)) := by
  induction h generalizing i items with
  | nil => simp [Meaning.dumpBody, Run.forEach]
  | cons he _ ih =>
    simp only [List.cons_append, Meaning.dumpBody, Run.forEach, Run.bind_assoc, Run.pure_bind]
    rw [← he.eval_eq hc [(x, v)] rfl]
    refine congrArg _ <| funext fun t => ?_
    rw [ih (i + 1)]
    simp only [List.append_assoc, List.singleton_append]

theorem DumpBodyLinked.evalBody_eq (hc : L.DumpsAlike place callee) {q : DumpProcedure}
    (h : DumpBodyLinked L x stmts q.body) :
    q.evalBody L.schema place v =
      Meaning.dumpBody L.schema L.locals callee [(x, v)] none stmts := by
  unfold DumpProcedure.evalBody
  generalize q.body = b at h
  cases h with
  | mapping h => exact (h.dumpBody_eq hc []).symm
  | sequence h => exact (h.dumpBody_eq hc 0 []).symm
  | value h => exact h.eval_eq hc [(x, v)] rfl

theorem DumpBodyLinked.run_eq (hc : L.DumpsAlike place callee) {p : Procedure} {q : DumpProcedure}
    (hp : p.locals = L.locals) (hq : q.name = p.name) (hx : p.signature.valueParam? = some x)
    (h : DumpBodyLinked L x p.body q.body) :
    q.run L.schema place v = Meaning.runDump L.schema callee p v := by
  unfold Meaning.runDump DumpProcedure.run
  simp only [hx, hp, h.evalBody_eq hc, hq]

end TreeCodec
