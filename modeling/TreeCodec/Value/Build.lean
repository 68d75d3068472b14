import TreeCodec.Value.Key
import TreeCodec.Value.Scalar

/-!
Checked construction and reading of values whose types are known only at run time.

A record or a tuple takes its values one after the other. Each has to be of the declared type; of
several faults the first value of a wrong type is reported, then a missing value, then values left
over.
-/
namespace TreeCodec

/-- Values on their way into a record, taken from the front. -/
structure FieldValues where
  owner : String
  values : List Value
  supplied : Nat
  taken : Nat
  deriving Inhabited

namespace FieldValues

def new (owner : String) (values : List Value) : FieldValues := ⟨owner, values, values.length, 0⟩

def remaining (fs : FieldValues) : Nat := fs.values.length

/-- Takes the next value, which has to be of type `t`. It counts as taken also when it is not. -/
def take (S : Schema) (t : Ty) (fs : FieldValues) : Except SchemaError Value × FieldValues :=
  let next := { fs with values := fs.values.tail, taken := fs.taken + 1 }
  match fs.values with
  | [] => (.error (.missingValue fs.owner fs.taken), next)
  | v :: _ =>
    if v.ty = t then (.ok v, next) else (.error (.fieldType fs.owner fs.taken (S.path t)), next)

def takeAll (S : Schema) (fs : FieldValues) :
    List Ty → Except SchemaError (List Value × FieldValues)
  | [] => .ok ([], fs)
  | t :: ts =>
    match fs.take S t with
    | (.error e, _) => .error e
    | (.ok v, fs) => (takeAll S fs ts).map fun (vs, fs) => (v :: vs, fs)

/-- No value may be left over. -/
def finish (fs : FieldValues) : Except SchemaError Unit :=
  if fs.taken < fs.supplied then .error (.extraValues fs.owner fs.supplied fs.taken) else .ok ()

/-- The values of all fields of the given types, no more and no fewer. -/
def collect (S : Schema) (owner : String) (types : List Ty) (values : List Value) :
    Except SchemaError (List Value) := do
  let (vs, rest) ← (new owner values).takeAll S types
  rest.finish
  return vs

end FieldValues

/-- The value on its way into a variant of a union. -/
structure VariantValue where
  owner : String
  index : Nat
  value : Value

namespace VariantValue

def take (S : Schema) (t : Ty) (v : VariantValue) : Except SchemaError Value :=
  if v.value.ty = t then .ok v.value else .error (.fieldType v.owner v.index (S.path t))

def unknown (v : VariantValue) : SchemaError := .noVariant v.owner v.index

end VariantValue

namespace Schema

variable (S : Schema)

/-- Checks that a value is of type `t`. -/
def require (t : Ty) (v : Value) : Except SchemaError Value :=
  if v.ty = t then .ok v else .error (.valueType (S.path t))

theorem require_eq_ok_iff {t : Ty} {v w : Value} : S.require t v = .ok w ↔ v.ty = t ∧ v = w := by
  by_cases h : v.ty = t <;> simp [require, h]

/-- Builds a record of type `t` from one value for each of its fields. -/
def buildRecord (id : String) (fields : List Field) (values : List Value) :
    Except SchemaError Value :=
  (FieldValues.collect S (S.name (.declared id)) (fields.map Field.ty) values).map (.record id)

def buildTuple (types : List Ty) (values : List Value) : Except SchemaError Value :=
  (FieldValues.collect S (S.name (.tuple types)) types values).map .tuple

/-- Builds a value of a record or tuple type. -/
def construct (t : Ty) (values : List Value) : Except SchemaError Value :=
  match t, S.shape t with
  | .declared id, .record fields _ => S.buildRecord id fields values
  | _, .tuple ts => S.buildTuple ts values
  | _, _ => .error (.valueType (S.path t))

/-- Reads a field of a record, which has to be of type `t`. -/
def getField (t : Ty) (index : Nat) (v : Value) : Except SchemaError (Option Value) := do
  match ← S.require t v with
  | .record _ fields => return fields[index]?
  | _ => .error (.valueType (S.path t))

def getElement (t : Ty) (index : Nat) (v : Value) : Except SchemaError (Option Value) := do
  match ← S.require t v with
  | .tuple vs => return vs[index]?
  | _ => .error (.valueType (S.path t))

/-- Builds the union `t` around the value of a variant. -/
def wrapVariant (t : Ty) (variants : List Variant) (index : Nat) (v : Value) :
    Except SchemaError Value :=
  let value : VariantValue := ⟨S.path t, index, v⟩
  match t, variants[index]? with
  | .declared id, some variant => (value.take S variant.ty).map (.union id index)
  | _, _ => .error value.unknown

/-- The active variant of a union, and its value. -/
def activeVariant (t : Ty) (v : Value) : Except SchemaError (Nat × Value) := do
  match ← S.require t v with
  | .union _ index payload => return (index, payload)
  | _ => .error (.valueType (S.path t))

def buildList (t item : Ty) (values : List Value) : Except SchemaError Value := do
  let vs ← values.mapM (S.require item)
  match t with
  | .list kind _ => return .list kind item vs
  | _ => .error (.valueType (S.path t))

def listItems (t : Ty) (v : Value) : Except SchemaError (List Value) := do
  match ← S.require t v with
  | .list _ _ vs => return vs
  | _ => .error (.valueType (S.path t))

def buildMap (t : Ty) (kind : MapKind) (key value : Ty) (entries : List (Value × Value)) :
    Except SchemaError Value := do
  let es ← entries.mapM fun (k, v) => do return (← S.require key k, ← S.require value v)
  match t with
  | .map .. => return .map kind key value (S.collect kind es)
  | _ => .error (.valueType (S.path t))

def mapEntries (t : Ty) (v : Value) : Except SchemaError (List (Value × Value)) := do
  match ← S.require t v with
  | .map _ _ _ es => return es
  | _ => .error (.valueType (S.path t))

def wrapSome (inner : Ty) (v : Value) : Except SchemaError Value :=
  (S.require inner v).map .some

def optionValue (t : Ty) (v : Value) : Except SchemaError (Option Value) := do
  match ← S.require t v with
  | .some w => return some w
  | .none _ => return none
  | _ => .error (.valueType (S.path t))

def wrapBox (inner : Ty) (v : Value) : Except SchemaError Value :=
  (S.require inner v).map .boxed

def boxValue (t : Ty) (v : Value) : Except SchemaError Value := do
  match ← S.require t v with
  | .boxed w => return w
  | _ => .error (.valueType (S.path t))

/-- The tree that a value of a dynamic type keeps. -/
def toTree (t : Ty) (v : Value) : Except SchemaError Tree := do
  match ← S.require t v with
  | .tree _ tree => return tree
  | _ => .error (.valueType (S.path t))

end Schema
end TreeCodec
