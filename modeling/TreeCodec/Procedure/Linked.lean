import TreeCodec.Convert.Dump
import TreeCodec.Convert.Load

/-!
Linked procedures: procedures with every name resolved.

A variable is the number of binders between it and the place where it is used, a helper is the type
or the hook that it is bound to, and a called procedure is its position in the unit. What a called
procedure does is a parameter of every evaluation, so evaluation itself follows the structure of the
expression.
-/
namespace TreeCodec

/-- Where a tree that is loaded comes from; `up` counts binders from the innermost one. -/
inductive LoadSource where
  | var (up : Nat)
  | key (up : Nat) (name : String)
  | item (up : Nat) (index : Nat)
  deriving DecidableEq, Repr

/-- The trees that the binders of a place stand for, innermost first. -/
abbrev LoadFrame := List (Option Tree)

namespace LoadSource

def read (frame : LoadFrame) : LoadSource → Run (Option Tree)
  | var up => pure frame[up]?.join
  | key up name => Load.entry name frame[up]?.join
  | item up index => Load.element index frame[up]?.join

/-- The run with its error seen from the base of the source. -/
def locate {α : Type} (r : Run α) : LoadSource → Run α
  | var _ => r
  | key _ name => r.within (.key name)
  | item _ index => r.within (.index index)

/-- Loads what is read. -/
def feed (frame : LoadFrame) (rule : Load.Rule) (s : LoadSource) : Run Value :=
  s.locate do
    let t ← s.read frame
    rule t

end LoadSource

inductive LoadExpr where
  | scalar (source : LoadSource) (s : ScalarTy)
  | tree (source : LoadSource) (ty : Ty)
  | hook (source : LoadSource) (h : LoadHook)
  | call (source : LoadSource) (index : Nat)
  | optional (source : LoadSource) (inner : Ty) (e : LoadExpr)
  | boxed (source : LoadSource) (inner : Ty) (e : LoadExpr)
  | list (source : LoadSource) (ty item : Ty) (e : LoadExpr)
  | map (source : LoadSource) (ty : Ty) (kind : MapKind) (key value : Ty) (k v : LoadExpr)
  | union (source : LoadSource) (ty : Ty) (variants : List Variant) (es : List LoadExpr)

namespace LoadExpr

variable (S : Schema) (callee : Nat → Load.Rule)

mutual

def eval : LoadExpr → LoadFrame → Run Value
  | scalar s t, frame => s.feed frame (Load.scalar t)
  | tree s ty, frame => s.feed frame (Load.tree ty)
  | hook s h, frame => s.feed frame (Load.hook h)
  | call s index, frame => s.feed frame (callee index)
  | optional s inner e, frame => s.feed frame (Load.optional S inner fun t => eval e (t :: frame))
  | boxed s inner e, frame => s.feed frame (Load.boxed S inner fun t => eval e (t :: frame))
  | list s ty item e, frame => s.feed frame (Load.list S ty item fun t => eval e (t :: frame))
  | map s ty kind key value k v, frame =>
    s.feed frame (Load.map S ty kind key value (fun t => eval k (t :: frame)) fun t =>
      eval v (t :: frame))
  | union s ty variants es, frame => s.feed frame (Load.union S ty variants (evalList es frame))

/-- The rules of alternatives, all over one binder. -/
def evalList : List LoadExpr → LoadFrame → List Load.Rule
  | [], _ => []
  | e :: es, frame => (fun t => eval e (t :: frame)) :: evalList es frame

end

end LoadExpr

inductive Expectation where
  | mapping
  | sequence (min len : Nat)
  deriving DecidableEq, Repr

def Expectation.check (input : Option Tree) : Expectation → Run Unit
  | mapping => Load.checkMapping input
  | sequence min len => Load.checkSequence min len input

/-- Fills a slot: from the default if there is one and the source is absent. -/
structure Assignment where
  source : LoadSource
  value : LoadExpr
  default : Option Value

def Assignment.eval (S : Schema) (callee : Nat → Load.Rule) (frame : LoadFrame) (a : Assignment) :
    Run Value := do
  match ← a.source.locate (a.source.read frame), a.default with
  | none, some v => pure v
  | _, _ => a.value.eval S callee frame

inductive LoadResult where
  -- A record or tuple from the slots.
  | construct (ty : Ty)
  | value (e : LoadExpr)

structure LoadProcedure where
  name : String
  expectation : Option Expectation
  knownKeys : Option (List String)
  assignments : List Assignment
  result : LoadResult

namespace LoadProcedure

variable (S : Schema) (callee : Nat → Load.Rule) (p : LoadProcedure)

/-- A procedure that only returns an expression leaves it to the expression what an absent tree is.
-/
def passesAbsent : Bool :=
  match p.expectation, p.result with
  | none, .value _ => true
  | _, _ => false

def body (input : Option Tree) : Run Value := do
  if let some e := p.expectation then e.check input
  if let some keys := p.knownKeys then Load.checkKeys keys input
  let values ← Run.forEach (fun _ a => a.eval S callee [input]) 0 p.assignments
  match p.result with
  | .construct ty => Run.ofExcept (S.construct ty values)
  | .value e => e.eval S callee [input]

/-- Runs the procedure on a tree that may be absent. The default stands in for an absent tree. -/
def run (input : Option Tree) (default : Option Value) : Run Value :=
  match input, default with
  | none, some v => pure v
  | none, none =>
    if p.passesAbsent then (p.body S callee none).through p.name else Run.fault .missing
  | some t, _ => (p.body S callee (some t)).through p.name

end LoadProcedure

/-- Where a value that is dumped comes from. -/
inductive DumpSource where
  | var (up : Nat)
  | attr (up : Nat) (record : Ty) (index : Nat) (name : String)
  | element (up : Nat) (tuple : Ty) (index : Nat)
  deriving DecidableEq

abbrev DumpFrame := List Value

namespace DumpSource

variable (S : Schema)

def lookup (frame : DumpFrame) (up : Nat) : Run Value :=
  match frame[up]? with
  | some v => pure v
  | none => Run.fault .missing

def read (frame : DumpFrame) : DumpSource → Run Value
  | var up => lookup frame up
  | attr up record index _ => do
    let v ← lookup frame up
    Dump.part (S.getField record index v)
  | element up tuple index => do
    let v ← lookup frame up
    Dump.part (S.getElement tuple index v)

def locate {α : Type} (r : Run α) : DumpSource → Run α
  | var _ => r
  | attr _ _ _ name => r.within (.key name)
  | element _ _ index => r.within (.index index)

def feed (frame : DumpFrame) (rule : Dump.Rule) (s : DumpSource) : Run Tree :=
  s.locate do
    let v ← s.read S frame
    rule v

end DumpSource

inductive DumpExpr where
  | scalar (source : DumpSource) (s : ScalarTy)
  | tree (source : DumpSource) (ty : Ty)
  | hook (source : DumpSource) (h : DumpHook)
  | call (source : DumpSource) (index : Nat)
  | optional (source : DumpSource) (ty : Ty) (e : DumpExpr)
  | boxed (source : DumpSource) (ty : Ty) (e : DumpExpr)
  | list (source : DumpSource) (ty : Ty) (e : DumpExpr)
  | map (source : DumpSource) (ty : Ty) (kind : MapKind) (k v : DumpExpr)
  | union (source : DumpSource) (ty : Ty) (es : List DumpExpr)

namespace DumpExpr

variable (S : Schema) (callee : Nat → Dump.Rule)

mutual

def eval : DumpExpr → DumpFrame → Run Tree
  | scalar s t, frame => s.feed S frame (Dump.scalar t)
  | tree s ty, frame => s.feed S frame (Dump.tree S ty)
  | hook s h, frame => s.feed S frame (Dump.hook h)
  | call s index, frame => s.feed S frame (callee index)
  | optional s ty e, frame => s.feed S frame (Dump.optional S ty fun v => eval e (v :: frame))
  | boxed s ty e, frame => s.feed S frame (Dump.boxed S ty fun v => eval e (v :: frame))
  | list s ty e, frame => s.feed S frame (Dump.list S ty fun v => eval e (v :: frame))
  | map s ty kind k v, frame =>
    s.feed S frame (Dump.map S ty kind (fun w => eval k (w :: frame)) fun w => eval v (w :: frame))
  | union s ty es, frame => s.feed S frame (Dump.union S ty (evalList es frame))

def evalList : List DumpExpr → DumpFrame → List Dump.Rule
  | [], _ => []
  | e :: es, frame => (fun v => eval e (v :: frame)) :: evalList es frame

end

end DumpExpr

structure Insertion where
  key : String
  value : DumpExpr
  omitNull : Bool

inductive DumpBody where
  | mapping (insertions : List Insertion)
  | sequence (values : List DumpExpr)
  | value (e : DumpExpr)

structure DumpProcedure where
  name : String
  body : DumpBody

namespace DumpProcedure

variable (S : Schema) (callee : Nat → Dump.Rule) (p : DumpProcedure)

/-- Inserts the entries of an object one after the other. -/
def insertAll (frame : DumpFrame) (entries : List (String × Tree)) :
    List Insertion → Run (List (String × Tree))
  | [] => pure entries
  | i :: is => do
    let t ← i.value.eval S callee frame
    insertAll frame (if i.omitNull && t = .null then entries else Keyed.put i.key t entries) is

def evalBody (v : Value) : Run Tree :=
  match p.body with
  | .mapping insertions => do
    let entries ← insertAll S callee [v] [] insertions
    return .object entries
  | .sequence values => do
    let items ← Run.forEach (fun _ e => e.eval S callee [v]) 0 values
    return .array items
  | .value e => e.eval S callee [v]

def run (v : Value) : Run Tree := (p.evalBody S callee v).through p.name

end DumpProcedure
end TreeCodec
