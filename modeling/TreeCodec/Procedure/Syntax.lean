import TreeCodec.Convert.Hook

/-!
Procedures: the intermediate form of a converter.

A procedure loads (from tree to value) or dumps (from value to tree). Its statements name the value
that is converted by variables, and helpers, types and defaults by local names that are bound when
the procedure is built.
-/
namespace TreeCodec

inductive Direction where
  | load | dump
  deriving DecidableEq, Repr

def Direction.text : Direction → String
  | load => "load"
  | dump => "dump"

/-- The parameters of a procedure. The last one may be left out by the caller. -/
structure Signature where
  direction : Direction
  params : List String
  missing : Bool
  deriving DecidableEq, Repr

namespace Signature

def load : Signature := ⟨.load, ["v1", "d"], true⟩

def dump : Signature := ⟨.dump, ["o"], false⟩

def of : Direction → Signature
  | .load => load
  | .dump => dump

/-- The parameter that carries the value being converted. -/
def valueParam? (s : Signature) : Option String := s.params.head?

end Signature

/-- What a local name stands for. -/
inductive Binding where
  | type (t : Ty)
  | loadHook (h : LoadHook)
  | dumpHook (h : DumpHook)
  | default (v : Value)

abbrev Locals := List (String × Binding)

/-- Where a value that is converted comes from. -/
inductive Operand where
  | var (name : String)
  -- An entry of an object; it may be absent.
  | key (base key : String)
  | item (base : String) (index : Nat)
  -- A field of a record; `owner` is the local name of its type.
  | attr (base owner : String) (index : Nat) (name : String)
  | element (base owner : String) (index : Nat)
  deriving DecidableEq, Repr, Inhabited

/-- The variable that an operand reads from. -/
def Operand.base : Operand → String
  | var base | key base _ | item base _ | attr base .. | element base .. => base

/-- An expression gives a converted value. One for a container names the values within it by a
binder and converts them by an expression over the binder. -/
inductive Expr where
  | leaf (helper : String) (arg : Operand)
  | call (procedure : String) (arg : Operand)
  | optional (helper : String) (arg : Operand) (binder : String) (inner : Expr)
  | boxed (helper : String) (arg : Operand) (binder : String) (inner : Expr)
  | list (helper : String) (arg : Operand) (binder : String) (item : Expr)
  | map (helper : String) (arg : Operand) (keyBinder : String) (key : Expr)
      (valueBinder : String) (value : Expr)
  -- One alternative for each variant. Loading keeps the first one that succeeds.
  | union (helper : String) (arg : Operand) (binder : String) (variants : List Expr)
  deriving Inhabited

namespace Expr

mutual

def beq : Expr → Expr → Bool
  | leaf h a, leaf h' a' => h = h' && a = a'
  | call p a, call p' a' => p = p' && a = a'
  | optional h a b e, optional h' a' b' e' => h = h' && a = a' && b = b' && beq e e'
  | boxed h a b e, boxed h' a' b' e' => h = h' && a = a' && b = b' && beq e e'
  | list h a b e, list h' a' b' e' => h = h' && a = a' && b = b' && beq e e'
  | map h a b e c f, map h' a' b' e' c' f' =>
    h = h' && a = a' && b = b' && beq e e' && c = c' && beq f f'
  | union h a b es, union h' a' b' es' => h = h' && a = a' && b = b' && beqList es es'
  | _, _ => false

def beqList : List Expr → List Expr → Bool
  | [], [] => true
  | e :: es, f :: fs => beq e f && beqList es fs
  | _, _ => false

end

mutual

theorem beq_iff : ∀ e f : Expr, beq e f = true ↔ e = f
  | leaf .., f => by cases f <;> simp [beq]
  | call .., f => by cases f <;> simp [beq]
  | optional _ _ _ e, f => by cases f <;> simp [beq, beq_iff e, and_assoc]
  | boxed _ _ _ e, f => by cases f <;> simp [beq, beq_iff e, and_assoc]
  | list _ _ _ e, f => by cases f <;> simp [beq, beq_iff e, and_assoc]
  | map _ _ _ e _ e', f => by cases f <;> simp [beq, beq_iff e, beq_iff e', and_assoc]
  | union _ _ _ es, f => by cases f <;> simp [beq, beqList_iff es, and_assoc]

theorem beqList_iff : ∀ es fs : List Expr, beqList es fs = true ↔ es = fs
  | [], fs => by cases fs <;> simp [beqList]
  | e :: es, fs => by cases fs <;> simp [beqList, beq_iff e, beqList_iff es]

end

instance : DecidableEq Expr := fun e f => decidable_of_iff (beq e f = true) (beq_iff e f)

mutual

/-- The procedures that an expression calls. -/
def calls : Expr → List String
  | leaf .. => []
  | call p _ => [p]
  | optional _ _ _ e | boxed _ _ _ e | list _ _ _ e => calls e
  | map _ _ _ e _ f => calls e ++ calls f
  | union _ _ _ es => callsList es

def callsList : List Expr → List String
  | [] => []
  | e :: es => calls e ++ callsList es

end

end Expr

inductive Stmt where
  -- Loading: the value has to be a mapping.
  | beginMapping (arg : Operand)
  -- Loading: the value has to be a sequence of `min` to `len` elements.
  | beginSequence (arg : Operand) (min len : Nat)
  | rejectUnknownKeys (arg : Operand) (keys : List String)
  -- Loading: fills a slot, from the bound default if there is one and the operand is absent.
  | assign (slot : Nat) (arg : Operand) (value : Expr) (default : Option String)
  -- Loading: builds the bound record or tuple from the slots.
  | construct (cls : String)
  | openMapping
  | openSequence
  | insert (key : String) (value : Expr) (omitNull : Bool)
  | push (value : Expr)
  | returnOutput
  | returnValue (value : Expr)
  deriving DecidableEq, Inhabited

namespace Stmt

/-- Whether a statement ends a body. -/
def isTerminal : Stmt → Bool
  | construct _ | returnOutput | returnValue _ => true
  | _ => false

def exprs : Stmt → List Expr
  | assign _ _ e _ | insert _ e _ | push e | returnValue e => [e]
  | _ => []

end Stmt

structure Procedure where
  name : String
  signature : Signature
  body : List Stmt := []
  locals : Locals := []

namespace Procedure

/-- The procedures that the body calls. -/
def calls (p : Procedure) : List String := p.body.flatMap fun s => s.exprs.flatMap Expr.calls

def binding? (p : Procedure) (name : String) : Option Binding := Keyed.get? name p.locals

end Procedure
end TreeCodec
