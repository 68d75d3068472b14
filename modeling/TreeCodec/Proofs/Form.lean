import Mathlib.Data.List.Forall2
import TreeCodec.Compile.Engine
import TreeCodec.Procedure.Meaning

/-!
The form of compiled procedures: which expression converts a value of a type, which body belongs to
a target, and what the helpers in it are applied to.
-/
namespace TreeCodec

-- The hook of a type in the direction of a compilation, as it is bound.
def Settings.hook? (s : Settings) (t : Ty) : Option Binding :=
  match s.direction with
  | .load => (s.hooks.load? t).map .loadHook
  | .dump => (s.hooks.dump? t).map .dumpHook

-- The variable of the value that a procedure converts.
def Direction.param : Direction → String
  | load => "v1"
  | dump => "o"

namespace Schema

variable (S : Schema)

-- Records, unions and tuples are converted by procedures of their own.
def HasProcedure (t : Ty) : Prop :=
  match S.shape t with
  | .record .. | .union _ | .tuple _ => True
  | _ => False

instance (t : Ty) : Decidable (S.HasProcedure t) := by
  unfold HasProcedure
  split <;> infer_instance

-- A value of the type is converted by one helper.
def IsLeaf (t : Ty) : Prop :=
  (∃ k, S.shape t = .scalar k) ∨ S.shape t = .dynamic

def helperName (kind : String) (t : Ty) : String :=
  kind ++ "_" ++ Text.identifier (S.name t)

def hookName (t : Ty) : String :=
  "hook_" ++ Text.identifier (S.name t)

def leafName (t : Ty) : String :=
  "as_" ++ Text.identifier (S.ident t)

end Schema

def Field.defaultName (f : Field) : String :=
  "default_" ++ Text.identifier f.name

-- A tuple element as a field without a key, a default or a type parameter.
def Field.ofElement (t : Ty) : Field where
  name := ""
  key := ""
  ty := t

-- The type that the procedure of a target is about.
def GuardKey.subject : GuardKey → Ty
  | origin t => t
  | arguments ts => ts.headD (.tuple [])

section Form

variable (s : Settings) (name? : GuardKey → Option String)

-- An expression converts values of a type that an operand reads. The procedures that it calls are
-- those of the targets.
inductive ExprFor : Ty → Operand → Expr → Prop
  | hook {t : Ty} {arg : Operand} {b : Binding} :
    s.hook? t = some b → ExprFor t arg (.leaf (s.schema.hookName t) arg)
  | leaf {t : Ty} {arg : Operand} :
    s.hook? t = none → s.schema.IsLeaf t → ExprFor t arg (.leaf (s.schema.leafName t) arg)
  | call {t : Ty} {arg : Operand} {p : String} :
    s.hook? t = none → s.schema.HasProcedure t → name? (.origin t) = some p →
    ExprFor t arg (.call p arg)
  | optional {u : Ty} {arg : Operand} {x : String} {e : Expr} :
    s.hook? (.optional u) = none → ExprFor u (.var x) e →
    ExprFor (.optional u) arg (.optional (s.schema.helperName "optional" (.optional u)) arg x e)
  | boxed {u : Ty} {arg : Operand} {x : String} {e : Expr} :
    s.hook? (.boxed u) = none → ExprFor u (.var x) e →
    ExprFor (.boxed u) arg (.boxed (s.schema.helperName "boxed" (.boxed u)) arg x e)
  | list {k : ListKind} {u : Ty} {arg : Operand} {x : String} {e : Expr} :
    s.hook? (.list k u) = none → ExprFor u (.var x) e →
    ExprFor (.list k u) arg (.list (s.schema.helperName "list" (.list k u)) arg x e)
  | map {k : MapKind} {u v : Ty} {arg : Operand} {x y : String} {e f : Expr} :
    s.hook? (.map k u v) = none → ExprFor u (.var x) e → ExprFor v (.var y) f →
    ExprFor (.map k u v) arg (.map (s.schema.helperName "map" (.map k u v)) arg x e y f)

-- A field with a type parameter is converted by the procedure of its slot.
inductive FieldExpr (f : Field) (arg : Operand) : Expr → Prop
  | slot {i : Nat} {p : String} :
    f.param = some i → name? (.arguments [f.ty]) = some p → FieldExpr f arg (.call p arg)
  | inline {e : Expr} : f.param = none → ExprFor s name? f.ty arg e → FieldExpr f arg e

-- One alternative for each variant, all over one binder.
def Alternatives (x : String) (variants : List Variant) (es : List Expr) : Prop :=
  List.Forall₂ (fun v e => ExprFor s name? v.ty (.var x) e) variants es

-- The assignments of fields to the slots from number `i` on.
inductive Assigns (source : Nat → Field → Operand) : Nat → List Field → List Stmt → Prop
  | nil {i : Nat} : Assigns source i [] []
  | cons {i : Nat} {f : Field} {fs : List Field} {e : Expr} {stmts : List Stmt} :
    FieldExpr s name? f (source i f) e → Assigns source (i + 1) fs stmts →
    Assigns source i (f :: fs)
      (.assign i (source i f) e (f.default.map fun _ => f.defaultName) :: stmts)

-- The output of fields from number `i` on.
inductive Outputs (source : Nat → Field → Operand) (put : Field → Expr → Stmt) :
    Nat → List Field → List Stmt → Prop
  | nil {i : Nat} : Outputs source put i [] []
  | cons {i : Nat} {f : Field} {fs : List Field} {e : Expr} {stmts : List Stmt} :
    FieldExpr s name? f (source i f) e → Outputs source put (i + 1) fs stmts →
    Outputs source put i (f :: fs) (put f e :: stmts)

def keyChecks (fields : List Field) : List Stmt :=
  if s.options.denyUnknownKeys then [.rejectUnknownKeys (.var "v1") (fields.map Field.key)] else []

-- The body of the procedure of a target.
inductive BodyFor : GuardKey → List Stmt → Prop
  | loadMapping {t : Ty} {fields : List Field} {stmts : List Stmt} :
    s.direction = .load → s.hook? t = none → s.schema.shape t = .record fields false →
    Assigns s name? (fun _ f => .key "v1" f.key) 0 fields stmts →
    BodyFor (.origin t)
      (.beginMapping (.var "v1") :: (keyChecks s fields ++ (stmts ++ [.construct "cls"])))
  | loadSequence {t : Ty} {fields : List Field} {stmts : List Stmt} :
    s.direction = .load → s.hook? t = none → s.schema.shape t = .record fields true →
    Assigns s name? (fun i _ => .item "v1" i) 0 fields stmts →
    BodyFor (.origin t)
      (.beginSequence (.var "v1") (requiredLength fields) fields.length ::
        (stmts ++ [.construct "cls"]))
  | loadTuple {t : Ty} {ts : List Ty} {stmts : List Stmt} :
    s.direction = .load → s.hook? t = none → s.schema.shape t = .tuple ts →
    Assigns s name? (fun i _ => .item "v1" i) 0 (ts.map .ofElement) stmts →
    BodyFor (.origin t)
      (.beginSequence (.var "v1") ts.length ts.length :: (stmts ++ [.construct "cls"]))
  | dumpMapping {t : Ty} {fields : List Field} {stmts : List Stmt} :
    s.direction = .dump → s.hook? t = none → s.schema.shape t = .record fields false →
    Outputs s name? (fun i f => .attr "o" "cls" i f.name)
      (fun f e => .insert f.key e s.options.omitNull) 0 fields stmts →
    BodyFor (.origin t) (.openMapping :: (stmts ++ [.returnOutput]))
  | dumpSequence {t : Ty} {fields : List Field} {stmts : List Stmt} :
    s.direction = .dump → s.hook? t = none → s.schema.shape t = .record fields true →
    Outputs s name? (fun i f => .attr "o" "cls" i f.name) (fun _ e => .push e) 0 fields stmts →
    BodyFor (.origin t) (.openSequence :: (stmts ++ [.returnOutput]))
  | dumpTuple {t : Ty} {ts : List Ty} {stmts : List Stmt} :
    s.direction = .dump → s.hook? t = none → s.schema.shape t = .tuple ts →
    Outputs s name? (fun i _ => .element "o" "cls" i) (fun _ e => .push e) 0
      (ts.map .ofElement) stmts →
    BodyFor (.origin t) (.openSequence :: (stmts ++ [.returnOutput]))
  | union {t : Ty} {variants : List Variant} {x : String} {es : List Expr} :
    s.hook? t = none → s.schema.shape t = .union variants → Alternatives s name? x variants es →
    BodyFor (.origin t)
      [.returnValue (.union (s.schema.helperName "union" t) (.var s.direction.param) x es)]
  | value {t : Ty} {e : Expr} :
    ¬(s.hook? t = none ∧ s.schema.HasProcedure t) →
    ExprFor s name? t (.var s.direction.param) e → BodyFor (.origin t) [.returnValue e]
  | slot {t : Ty} {e : Expr} :
    ExprFor s name? t (.var s.direction.param) e → BodyFor (.arguments [t]) [.returnValue e]

end Form

/-! ## What helpers are applied to -/

mutual

-- The names of the helpers in an expression.
def Expr.helpers : Expr → List String
  | .leaf helper _ => [helper]
  | .call .. => []
  | .optional helper _ _ e | .boxed helper _ _ e | .list helper _ _ e => helper :: e.helpers
  | .map helper _ _ k _ e => helper :: (k.helpers ++ e.helpers)
  | .union helper _ _ es => helper :: Expr.helpersList es

def Expr.helpersList : List Expr → List String
  | [] => []
  | e :: es => e.helpers ++ helpersList es

end

-- The names of the helpers in a statement, and of the default that it falls back on.
def Stmt.helpers : Stmt → List String
  | .assign _ _ e default => e.helpers ++ default.toList
  | .insert _ e _ | .push e | .returnValue e => e.helpers
  | _ => []

def Procedure.helpers (p : Procedure) : List String :=
  p.body.flatMap Stmt.helpers

section Uses

variable (s : Settings)

mutual

-- The helpers of an expression for a type, each with what it has to stand for: the hook of the value
-- that it is applied to, or else the type of it.
def Expr.uses : Expr → Ty → List (String × Binding)
  | .leaf helper _, t => [(helper, (s.hook? t).getD (.type t))]
  | .call .., _ => []
  | .optional helper _ _ e, t =>
    (helper, .type t) ::
      match s.schema.shape t with
      | .optional u => e.uses u
      | _ => []
  | .boxed helper _ _ e, t =>
    (helper, .type t) ::
      match s.schema.shape t with
      | .boxed u => e.uses u
      | _ => []
  | .list helper _ _ e, t =>
    (helper, .type t) ::
      match s.schema.shape t with
      | .list u => e.uses u
      | _ => []
  | .map helper _ _ k _ e, t =>
    (helper, .type t) ::
      match s.schema.shape t with
      | .map _ u v => k.uses u ++ e.uses v
      | _ => []
  | .union helper _ _ es, t =>
    (helper, .type t) ::
      match s.schema.shape t with
      | .union variants => Expr.usesAll es (variants.map Variant.ty)
      | _ => []

def Expr.usesAll : List Expr → List Ty → List (String × Binding)
  | e :: es, t :: ts => e.uses t ++ usesAll es ts
  | _, _ => []

end

-- The parts that the procedure of a type converts one after the other.
def Schema.parts (S : Schema) (t : Ty) : List Field :=
  match S.shape t with
  | .record fields _ => fields
  | .tuple ts => ts.map .ofElement
  | _ => []

-- The default of a field under the name that it is looked up by.
def defaultUses (f : Field) (name : Option String) : List (String × Binding) :=
  match name, f.default with
  | some name, some v => [(name, .default v)]
  | _, _ => []

-- The helpers of the statements of a body for type `t`, of which `parts` are not converted yet.
def Stmt.usesAll (t : Ty) : List Field → List Stmt → List (String × Binding)
  | f :: parts, .assign _ _ e name :: rest =>
    e.uses s f.ty ++ defaultUses f name ++ usesAll t parts rest
  | f :: parts, .insert _ e _ :: rest => e.uses s f.ty ++ usesAll t parts rest
  | f :: parts, .push e :: rest => e.uses s f.ty ++ usesAll t parts rest
  | parts, .returnValue e :: rest => e.uses s t ++ usesAll t parts rest
  | parts, _ :: rest => usesAll t parts rest
  | _, [] => []

def bodyUses (t : Ty) (body : List Stmt) : List (String × Binding) :=
  Stmt.usesAll s t (s.schema.parts t) body

-- The helpers of a procedure, which is about the type that `cls` is bound to.
def Procedure.uses (p : Procedure) : List (String × Binding) :=
  match Meaning.typeOf? p.locals "cls" with
  | some t => bodyUses s t p.body
  | none => []

-- Every helper of a procedure is bound to what it is applied to.
def Procedure.HelpersBound (p : Procedure) : Prop :=
  ∀ name b, (name, b) ∈ p.uses s → p.binding? name = some b

-- No helper of a procedure is applied to two different things.
def Procedure.HelpersDistinct (p : Procedure) : Prop :=
  ∀ name b b', (name, b) ∈ p.uses s → (name, b') ∈ p.uses s → b = b'

end Uses

-- Local names bound one after the other.
def Locals.bindAll (locals : Locals) (bound : List (String × Binding)) : Locals :=
  bound.foldl (fun out (name, b) => Keyed.put name b out) locals

-- A procedure of a target.
structure ProcedureFor (s : Settings) (name? : GuardKey → Option String) (key : GuardKey)
    (p : Procedure) : Prop where
  signature : p.signature = .of s.direction
  body      : BodyFor s name? key p.body
  locals    : p.locals =
    Locals.bindAll [("cls", .type key.subject)] (bodyUses s key.subject p.body)

end TreeCodec
