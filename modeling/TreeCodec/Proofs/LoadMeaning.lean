import TreeCodec.Proofs.LinkedBody
import TreeCodec.Proofs.LoadCalls
import TreeCodec.Proofs.PureRun

/-!
A linked load procedure does what the procedure means.

The binders around a place are an environment of names for the procedure and a frame for the linked
one. A name found among the names of an environment is found in the frame at the same depth, and an
expression that goes below a binder adds to both.
-/
namespace TreeCodec

theorem Keyed.get?_of_idxOf? {α : Type} {x : String} {env : Meaning.Env α} {up : Nat}
    (h : (env.map Prod.fst).idxOf? x = some up) :
    ∃ a, get? x env = some a ∧ (env.map Prod.snd)[up]? = some a := by
  induction env generalizing up with
  | nil => nomatch h
  | cons b env ih =>
    simp only [List.map_cons, List.idxOf?_cons] at h
    split at h
    case isTrue hx =>
      cases h
      exact ⟨b.2, if_pos (beq_iff_eq.mp hx), rfl⟩
    case isFalse hx =>
      have ⟨up', hup', heq⟩ := Option.map_eq_some_iff.mp h
      subst heq
      have ⟨a, ha, hs⟩ := ih hup'
      exact ⟨a, (if_neg (beq_iff_eq.not.mp hx)).trans ha, hs⟩

theorem Meaning.lookup_eq {α : Type} {x : String} {env : Env α} {a : α}
    (h : Keyed.get? x env = some a) : lookup env x = pure a := by
  simp only [lookup, h]

/-! ## Sources -/

namespace LoadSource

def up : LoadSource → Nat
  | var up | key up _ | item up _ => up

variable {scope : Scope} {arg : Operand} {s : LoadSource}

theorem Resolves.up_lt (h : s.Resolves scope arg) : s.up < scope.length := by
  cases h with
  | var h | key h | item h => exact (List.idxOf?_eq_some_iff.mp h).choose

theorem Resolves.locate_eq {α : Type} (h : s.Resolves scope arg) (r : Run α) :
    s.locate r = Meaning.locate r arg := by
  cases h <;> rfl

variable {env : Meaning.Env (Option Tree)} (he : env.map Prod.fst = scope)
include he

theorem Resolves.read_eq (h : s.Resolves scope arg) :
    s.read (env.map Prod.snd) = Meaning.readTree env arg := by
  subst he
  cases h with
  | var h | key h | item h =>
    have ⟨t, ht, hup⟩ := Keyed.get?_of_idxOf? h
    simp [read, Meaning.readTree, Meaning.lookup_eq ht, hup]

theorem Resolves.feed_eq (h : s.Resolves scope arg) (rule : Load.Rule) :
    s.feed (env.map Prod.snd) rule = Meaning.feedTree env arg rule := by
  unfold feed Meaning.feedTree
  rw [h.locate_eq, h.read_eq he]

end LoadSource

/-! ## Expressions -/

mutual

-- Every source reads from one of as many binders as there are around the expression.
def LoadExpr.InScope : Nat → LoadExpr → Prop
  | n, scalar s _ | n, tree s _ | n, hook s _ | n, call s _ => s.up < n
  | n, optional s _ e | n, boxed s _ e | n, list s _ _ e => s.up < n ∧ InScope (n + 1) e
  | n, map s _ _ _ _ k v => s.up < n ∧ InScope (n + 1) k ∧ InScope (n + 1) v
  | n, union s _ _ es => s.up < n ∧ AllInScope (n + 1) es

def LoadExpr.AllInScope : Nat → List LoadExpr → Prop
  | _, [] => True
  | n, e :: es => InScope n e ∧ AllInScope n es

end

variable {L : Linker}

mutual

theorem LoadLinked.inScope : ∀ {scope : Scope} {e : Expr} {le : LoadExpr},
    LoadLinked L scope e le → le.InScope scope.length
  | _, _, _, .scalar hs _ _ | _, _, _, .tree hs _ _ | _, _, _, .hook hs _ | _, _, _, .call hs _ =>
    hs.up_lt
  | _, _, _, .optional hs _ h | _, _, _, .boxed hs _ h | _, _, _, .list hs _ h =>
    ⟨hs.up_lt, h.inScope⟩
  | _, _, _, .map hs _ hk hv => ⟨hs.up_lt, hk.inScope, hv.inScope⟩
  | _, _, _, .union hs _ _ h => ⟨hs.up_lt, h.inScope⟩

theorem LoadAllLinked.inScope : ∀ {scope : Scope} {es : List Expr} {les : List LoadExpr},
    LoadAllLinked L scope es les → LoadExpr.AllInScope scope.length les
  | _, _, _, .nil => trivial
  | _, _, _, .cons h hs => ⟨h.inScope, hs.inScope⟩

end

-- Names of called load procedures with the places that they stand for.
def Linker.Loads (L : Linker) : List String → List Nat → Prop :=
  List.Forall₂ fun name i => Keyed.get? name L.slots = some (.load i)

theorem Linker.Loads.append {names names' : List String} {is js : List Nat} (h : L.Loads names is)
    (h' : L.Loads names' js) : L.Loads (names ++ names') (is ++ js) :=
  List.rel_append h h'

mutual

theorem LoadLinked.calls : ∀ {scope : Scope} {e : Expr} {le : LoadExpr},
    LoadLinked L scope e le → L.Loads e.calls le.callees
  | _, _, _, .scalar .. | _, _, _, .tree .. | _, _, _, .hook .. => .nil
  | _, _, _, .call _ h => .cons h .nil
  | _, _, _, .optional _ _ h | _, _, _, .boxed _ _ h | _, _, _, .list _ _ h => h.calls
  | _, _, _, .map _ _ hk hv => hk.calls.append hv.calls
  | _, _, _, .union _ _ _ h => h.calls

theorem LoadAllLinked.calls : ∀ {scope : Scope} {es : List Expr} {les : List LoadExpr},
    LoadAllLinked L scope es les → L.Loads (Expr.callsList es) (LoadExpr.calleesList les)
  | _, _, _, .nil => .nil
  | _, _, _, .cons h hs => h.calls.append hs.calls

end

-- What is called at a place is what is called by the name that stands for it.
def Linker.LoadsAlike (L : Linker) (place : Nat → Load.Rule) (callee : String → Load.Rule) : Prop :=
  ∀ name i, Keyed.get? name L.slots = some (.load i) → place i = callee name

variable {place : Nat → Load.Rule} {callee : String → Load.Rule}

mutual

theorem LoadLinked.eval_eq (hc : L.LoadsAlike place callee) : ∀ {scope : Scope} {e : Expr}
    {le : LoadExpr}, LoadLinked L scope e le →
    ∀ env : Meaning.Env (Option Tree), env.map Prod.fst = scope →
    le.eval L.schema place (env.map Prod.snd) = Meaning.loadExpr L.schema L.locals callee e env
  | _, _, _, .scalar hs hb hk, env, he => by
    simp only [LoadExpr.eval, Meaning.loadExpr, Meaning.loadLeaf, hs.feed_eq he, hb, hk]
  | _, _, _, .tree hs hb hk, env, he => by
    simp only [LoadExpr.eval, Meaning.loadExpr, Meaning.loadLeaf, hs.feed_eq he, hb, hk]
  | _, _, _, .hook hs hb, env, he => by
    simp only [LoadExpr.eval, Meaning.loadExpr, Meaning.loadLeaf, hs.feed_eq he, hb]
  | _, _, _, .call hs hi, env, he => by
    simp only [LoadExpr.eval, Meaning.loadExpr, hs.feed_eq he, hc _ _ hi]
  | _, _, _, .optional (x := x) hs hv h, env, he => by
    simp only [LoadExpr.eval, Meaning.loadExpr, hs.feed_eq he, hv]
    exact congrArg _ <| congrArg _ <| funext fun t =>
      h.eval_eq hc ((x, t) :: env) <| congrArg (x :: ·) he
  | _, _, _, .boxed (x := x) hs hv h, env, he => by
    simp only [LoadExpr.eval, Meaning.loadExpr, hs.feed_eq he, hv]
    exact congrArg _ <| congrArg _ <| funext fun t =>
      h.eval_eq hc ((x, t) :: env) <| congrArg (x :: ·) he
  | _, _, _, .list (x := x) hs hv h, env, he => by
    simp only [LoadExpr.eval, Meaning.loadExpr, hs.feed_eq he, hv]
    exact congrArg _ <| congrArg _ <| funext fun t =>
      h.eval_eq hc ((x, t) :: env) <| congrArg (x :: ·) he
  | _, _, _, .map (x := x) (y := y) hs hv hk h, env, he => by
    simp only [LoadExpr.eval, Meaning.loadExpr, hs.feed_eq he, hv]
    exact congrArg _ <| congrArg₂ _
      (funext fun t => hk.eval_eq hc ((x, t) :: env) <| congrArg (x :: ·) he)
      (funext fun t => h.eval_eq hc ((y, t) :: env) <| congrArg (y :: ·) he)
  | _, _, _, .union (x := x) hs hv hn h, env, he => by
    simp only [LoadExpr.eval, Meaning.loadExpr, hs.feed_eq he, hv]
    exact congrArg _ <| congrArg _ <| h.eval_eq hc x env <| congrArg (x :: ·) he

theorem LoadAllLinked.eval_eq (hc : L.LoadsAlike place callee) : ∀ {scope : Scope}
    {es : List Expr} {les : List LoadExpr}, LoadAllLinked L scope es les →
    ∀ (x : String) (env : Meaning.Env (Option Tree)), x :: env.map Prod.fst = scope →
    LoadExpr.evalList L.schema place les (env.map Prod.snd) =
      Meaning.loadExprs L.schema L.locals callee x es env
  | _, _, _, .nil, _, _, _ => rfl
  | _, _, _, .cons h hs, x, env, he => by
    simp only [LoadExpr.evalList, Meaning.loadExprs]
    exact congrArg₂ _ (funext fun t => h.eval_eq hc ((x, t) :: env) he) (hs.eval_eq hc x env he)

end

/-! ## Procedures -/

section Bodies

variable {x : String} {input : Option Tree}

theorem Assignment.eval_eq (hc : L.LoadsAlike place callee) {arg : Operand} {e : Expr}
    {default : Option String} {s : LoadSource} {le : LoadExpr} {v : Option Value}
    (hs : s.Resolves [x] arg) (he : LoadLinked L [x] e le) (hv : DefaultLinked L default v) :
    Assignment.eval L.schema place [input] ⟨s, le, v⟩ =
      Meaning.assigned L.schema L.locals callee [(x, input)] arg e default := by
  have henv : [(x, input)].map Prod.fst = [x] := rfl
  have hread : s.read [input] = Meaning.readTree [(x, input)] arg := hs.read_eq henv
  have heval : le.eval L.schema place [input] = _ := he.eval_eq hc [(x, input)] rfl
  cases hv with
  | none =>
    simp only [Assignment.eval, Meaning.assigned, hs.locate_eq, hread, heval]
  | some hv =>
    simp only [Assignment.eval, Meaning.assigned, hs.locate_eq, hread, heval, hv]
    exact congrArg _ <| funext fun t => by cases t <;> rfl

variable {stmts rest : List Stmt}

theorem AssignmentsLinked.loadBody_eq (hc : L.LoadsAlike place callee) {n : Nat}
    {as : List Assignment} (h : AssignmentsLinked L x n stmts as) (i : Nat) {slots : List Value}
    (hn : slots.length = n) :
    Meaning.loadBody L.schema L.locals callee [(x, input)] slots (stmts ++ rest) =
      Run.forEach (fun _ a => a.eval L.schema place [input]) i as >>= fun values =>
        Meaning.loadBody L.schema L.locals callee [(x, input)] (slots ++ values) rest := by
  induction h generalizing i slots with
  | nil => simp [Run.forEach]
  | cons hs he hv _ ih =>
    simp only [List.cons_append, Meaning.loadBody, Run.forEach, Run.bind_assoc, Run.pure_bind,
      Assignment.eval_eq hc hs he hv, hn, if_true]
    refine congrArg _ <| funext fun v => ?_
    rw [ih (i + 1) (by simp [hn])]
    simp only [List.append_assoc, List.singleton_append]

theorem LoadResultLinked.loadBody_eq (hc : L.LoadsAlike place callee) (slots : List Value) {n : Nat}
    {last : Stmt} {r : LoadResult} : LoadResultLinked L x n last r →
    Meaning.loadBody L.schema L.locals callee [(x, input)] slots [last] =
      match r with
      | .construct t => Run.ofExcept (L.schema.construct t slots)
      | .value e => e.eval L.schema place [input] := by
  intro h
  cases h with
  | record ht | tuple ht => simp only [Meaning.loadBody, ht]
  | value he => exact (he.eval_eq hc [(x, input)] rfl).symm

theorem ChecksLinked.loadBody_eq {checked : Option Expectation} {keys : Option (List String)}
    (h : ChecksLinked x stmts checked keys) :
    Meaning.loadBody L.schema L.locals callee [(x, input)] [] (stmts ++ rest) = (do
      if let some e := checked then e.check input
      if let some keys := keys then Load.checkKeys keys input
      Meaning.loadBody L.schema L.locals callee [(x, input)] [] rest) := by
  have hx : Meaning.readTree [(x, input)] (.var x) = pure input := by
    simp [Meaning.readTree, Meaning.lookup, Keyed.get?]
  cases h <;>
    simp only [List.nil_append, List.cons_append, Meaning.loadBody, hx, Run.pure_bind,
      Expectation.check]

theorem LoadBodyLinked.body_eq (hc : L.LoadsAlike place callee) {q : LoadProcedure}
    (h : LoadBodyLinked L x stmts q) :
    q.body L.schema place input =
      Meaning.loadBody L.schema L.locals callee [(x, input)] [] stmts := by
  cases h with
  | mk hchecks hassigns hlast =>
    rw [hchecks.loadBody_eq, hassigns.loadBody_eq hc 0 List.length_nil]
    simp only [List.nil_append, LoadResultLinked.loadBody_eq hc _ hlast]
    rfl

theorem LoadBodyLinked.passesAbsent_eq {p : Procedure} {q : LoadProcedure}
    (h : LoadBodyLinked L x p.body q) : q.passesAbsent = Meaning.passesAbsent p := by
  obtain ⟨name, expectation, keys, as, r⟩ := q
  unfold LoadProcedure.passesAbsent Meaning.passesAbsent
  generalize p.body = stmts at h
  cases h with
  | mk hchecks hassigns hlast =>
    dsimp only at hchecks hassigns hlast ⊢
    generalize hn : as.length = n at hlast
    cases hchecks <;> cases hassigns <;> cases hlast <;> first | rfl | nomatch hn

theorem LoadBodyLinked.run_eq (hc : L.LoadsAlike place callee) {p : Procedure} {q : LoadProcedure}
    (hp : p.locals = L.locals) (hq : q.name = p.name) (hx : p.signature.valueParam? = some x)
    (h : LoadBodyLinked L x p.body q) (default : Option Value) :
    q.run L.schema place input default = Meaning.runLoad L.schema callee p input default := by
  unfold Meaning.runLoad
  simp only [hx, hp, ← h.body_eq hc, ← h.passesAbsent_eq, ← hq]
  cases input with
  | some t => cases default <;> simp [LoadProcedure.run]
  | none => cases default with
    | some v => rfl
    | none => cases ha : q.passesAbsent <;> simp [LoadProcedure.run, ha]

end Bodies
end TreeCodec
