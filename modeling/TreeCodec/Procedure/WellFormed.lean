import TreeCodec.Procedure.Syntax

/-!
Well-formed procedures.

The statements of a body stand in a fixed order, every variable is in scope and of the kind that the
direction reads, every local name is bound to what it is used for, and every call is to a procedure
of the same direction.
-/
namespace TreeCodec.WellFormed

variable (S : Schema) (procedures : List Procedure) (locals : Locals)

/-- A local name is bound to a type of a shape. -/
def Bound (name : String) (t : Ty) (shape : Shape) : Prop :=
  Keyed.get? name locals = some (.type t) ∧ S.shape t = shape

/-- A procedure of a name and a direction is there. -/
def Defined (d : Direction) (name : String) : Prop :=
  ∃ p ∈ procedures, p.name = name ∧ p.signature.direction = d

/-- An operand that reads a tree. -/
inductive ReadsTree (scope : List String) : Operand → Prop where
  | var {x : String} : x ∈ scope → ReadsTree scope (.var x)
  | key {x key : String} : x ∈ scope → ReadsTree scope (.key x key)
  | item {x : String} {index : Nat} : x ∈ scope → ReadsTree scope (.item x index)

/-- An operand that reads a value. -/
inductive ReadsValue (scope : List String) : Operand → Prop where
  | var {x : String} : x ∈ scope → ReadsValue scope (.var x)
  | attr {x owner name : String} {index : Nat} {t : Ty} {fields : List Field} {positional : Bool} :
      x ∈ scope → Bound S locals owner t (.record fields positional) → index < fields.length →
      ReadsValue scope (.attr x owner index name)
  | element {x owner : String} {index : Nat} {t : Ty} {elements : List Ty} :
      x ∈ scope → Bound S locals owner t (.tuple elements) → index < elements.length →
      ReadsValue scope (.element x owner index)

/-- An operand that a procedure of a direction can read. -/
def Reads (scope : List String) : Direction → Operand → Prop
  | .load => ReadsTree scope
  | .dump => ReadsValue S locals scope

/-- What a helper for a leaf is bound to. -/
inductive LeafHelper (d : Direction) (helper : String) : Prop where
  | scalar {t : Ty} {s : ScalarTy} : Bound S locals helper t (.scalar s) → LeafHelper d helper
  | dynamic {t : Ty} : Bound S locals helper t .dynamic → LeafHelper d helper
  | loadHook {h : LoadHook} :
      d = .load → Keyed.get? helper locals = some (.loadHook h) → LeafHelper d helper
  | dumpHook {h : DumpHook} :
      d = .dump → Keyed.get? helper locals = some (.dumpHook h) → LeafHelper d helper

inductive WellFormedExpr (d : Direction) : List String → Expr → Prop where
  | leaf {scope : List String} {helper : String} {arg : Operand} :
      Reads S locals scope d arg → LeafHelper S locals d helper →
      WellFormedExpr d scope (.leaf helper arg)
  | call {scope : List String} {name : String} {arg : Operand} :
      Reads S locals scope d arg → Defined procedures d name →
      WellFormedExpr d scope (.call name arg)
  | optional {scope : List String} {helper x : String} {arg : Operand} {e : Expr} {t u : Ty} :
      Reads S locals scope d arg → Bound S locals helper t (.optional u) →
      WellFormedExpr d (x :: scope) e → WellFormedExpr d scope (.optional helper arg x e)
  | boxed {scope : List String} {helper x : String} {arg : Operand} {e : Expr} {t u : Ty} :
      Reads S locals scope d arg → Bound S locals helper t (.boxed u) →
      WellFormedExpr d (x :: scope) e → WellFormedExpr d scope (.boxed helper arg x e)
  | list {scope : List String} {helper x : String} {arg : Operand} {e : Expr} {t u : Ty} :
      Reads S locals scope d arg → Bound S locals helper t (.list u) →
      WellFormedExpr d (x :: scope) e → WellFormedExpr d scope (.list helper arg x e)
  | map {scope : List String} {helper x y : String} {arg : Operand} {k e : Expr} {t u w : Ty}
      {kind : MapKind} :
      Reads S locals scope d arg → Bound S locals helper t (.map kind u w) →
      WellFormedExpr d (x :: scope) k → WellFormedExpr d (y :: scope) e →
      WellFormedExpr d scope (.map helper arg x k y e)
  -- A union has one alternative for each variant.
  | union {scope : List String} {helper x : String} {arg : Operand} {es : List Expr} {t : Ty}
      {variants : List Variant} :
      Reads S locals scope d arg → Bound S locals helper t (.union variants) →
      es.length = variants.length → (∀ e ∈ es, WellFormedExpr d (x :: scope) e) →
      WellFormedExpr d scope (.union helper arg x es)

/-- The checks that the body of a load procedure may begin with. -/
inductive Checks (x : String) : List Stmt → Prop where
  | none : Checks x []
  | mapping : Checks x [.beginMapping (.var x)]
  | knownKeys {keys : List String} :
      Checks x [.beginMapping (.var x), .rejectUnknownKeys (.var x) keys]
  | sequence {min len : Nat} : min ≤ len → Checks x [.beginSequence (.var x) min len]

/-- Statements that fill the slots from number `slot` to before number `stop`. -/
inductive Assigns (x : String) : Nat → Nat → List Stmt → Prop where
  | nil {slot : Nat} : Assigns x slot slot []
  | cons {slot stop : Nat} {arg : Operand} {e : Expr} {default : Option String}
      {rest : List Stmt} :
      ReadsTree [x] arg → WellFormedExpr S procedures locals .load [x] e →
      (∀ name ∈ default, ∃ v, Keyed.get? name locals = some (.default v)) →
      Assigns x (slot + 1) stop rest →
      Assigns x slot stop (.assign slot arg e default :: rest)

/-- What the body of a load procedure ends with, after `assigned` slots were filled. -/
inductive Results (x : String) (assigned : Nat) : Stmt → Prop where
  | record {cls : String} {t : Ty} {fields : List Field} {positional : Bool} :
      Bound S locals cls t (.record fields positional) → fields.length = assigned →
      Results x assigned (.construct cls)
  | tuple {cls : String} {t : Ty} {elements : List Ty} :
      Bound S locals cls t (.tuple elements) → elements.length = assigned →
      Results x assigned (.construct cls)
  | value {e : Expr} :
      assigned = 0 → WellFormedExpr S procedures locals .load [x] e →
      Results x assigned (.returnValue e)

def LoadBody (x : String) (body : List Stmt) : Prop :=
  ∃ checks assigns last assigned, body = checks ++ assigns ++ [last] ∧ Checks x checks ∧
    Assigns S procedures locals x 0 assigned assigns ∧
    Results S procedures locals x assigned last

inductive Inserts (x : String) : List Stmt → Prop where
  | nil : Inserts x []
  | cons {key : String} {e : Expr} {omitNull : Bool} {rest : List Stmt} :
      WellFormedExpr S procedures locals .dump [x] e → Inserts x rest →
      Inserts x (.insert key e omitNull :: rest)

inductive Pushes (x : String) : List Stmt → Prop where
  | nil : Pushes x []
  | cons {e : Expr} {rest : List Stmt} :
      WellFormedExpr S procedures locals .dump [x] e → Pushes x rest → Pushes x (.push e :: rest)

inductive DumpBody (x : String) : List Stmt → Prop where
  | mapping {inserts : List Stmt} :
      Inserts S procedures locals x inserts →
        DumpBody x (.openMapping :: inserts ++ [.returnOutput])
  | sequence {pushes : List Stmt} :
      Pushes S procedures locals x pushes → DumpBody x (.openSequence :: pushes ++ [.returnOutput])
  | value {e : Expr} :
      WellFormedExpr S procedures locals .dump [x] e → DumpBody x [.returnValue e]

/-- A procedure with a parameter and a well-formed body. -/
def WellFormedProcedure (p : Procedure) : Prop :=
  ∃ x, p.signature.valueParam? = some x ∧
    match p.signature.direction with
    | .load => LoadBody S procedures p.locals x p.body
    | .dump => DumpBody S procedures p.locals x p.body

end TreeCodec.WellFormed
