import TreeCodec.Store.Keyed
import TreeCodec.Value.Basic

/-!
Schemas: what the declared types are, and what every type is called.

`Schema.shape` unfolds a type by one step, `Schema.names` gives its names. Both see the structure of
a type only, so two types of one structure and one name stay different types.
-/
namespace TreeCodec

inductive TypeKind where
  | record | union | tuple | list | map | optional | boxed | scalar | dynamic | foreign
  deriving DecidableEq, Repr

def TypeKind.text : TypeKind → String
  | record => "record"
  | union => "union"
  | tuple => "tuple"
  | list => "list"
  | map => "map"
  | optional => "optional"
  | boxed => "boxed"
  | scalar => "scalar"
  | dynamic => "dynamic"
  | foreign => "opaque"

/-- A type was not of the kind that an operation is for. -/
structure KindMismatch where
  expected : TypeKind
  received : TypeKind
  deriving DecidableEq, Repr

def KindMismatch.message (e : KindMismatch) : String :=
  "type kind mismatch: expected " ++ e.expected.text ++ ", received " ++ e.received.text

/-- What a type is called: in full, in short, without its arguments, and where it is defined. -/
structure TypeNames where
  path : String
  name : String
  ident : String
  module : Option String
  deriving DecidableEq, Repr, Inhabited

namespace TypeNames

def plain (name : String) : TypeNames := ⟨name, name, name, none⟩

def qualified (module ident : String) : TypeNames :=
  ⟨module ++ "::" ++ ident, ident, ident, some module⟩

/-- A generic type applied to arguments. -/
def applied (module ident : String) (args : List TypeNames) : TypeNames where
  path := module ++ "::" ++ ident ++ "<" ++ ", ".intercalate (args.map path) ++ ">"
  name := ident ++ "<" ++ ", ".intercalate (args.map name) ++ ">"
  ident := ident
  module := some module

-- A tuple of one element keeps its comma.
private def parenthesized : List String → String
  | [part] => "(" ++ part ++ ",)"
  | parts => "(" ++ ", ".intercalate parts ++ ")"

def tuple (parts : List TypeNames) : TypeNames where
  path := parenthesized (parts.map path)
  name := parenthesized (parts.map name)
  ident := parenthesized (parts.map ident)
  module := none

end TypeNames

def ScalarTy.names : ScalarTy → TypeNames
  | bool => .plain "bool"
  | char => .plain "char"
  | int t => .plain t.name
  | float t => .plain t.name
  | string => .qualified "alloc::string" "String"

structure Field where
  name : String
  -- The key under which the field stands in a mapping.
  key : String
  ty : Ty
  -- What the field holds when its key or element is absent.
  default : Option Value := none
  -- The type parameter that the field is declared with.
  param : Option Nat := none
  deriving Inhabited

structure Variant where
  name : String
  ty : Ty
  deriving Inhabited

inductive Definition where
  | record (fields : List Field) (positional : Bool)
  | union (variants : List Variant)
  -- Values keep their tree.
  | dynamic
  -- Nothing is known of the type, so only a hook can convert it.
  | foreign
  deriving Inhabited

structure Declaration where
  names : TypeNames
  definition : Definition
  -- Type parameters with the types bound to them.
  generics : List (String × Ty) := []
  deriving Inhabited

structure Schema where
  declarations : List (String × Declaration)
  deriving Inhabited

/-- The structure of a type, one step deep. -/
inductive Shape where
  | record (fields : List Field) (positional : Bool)
  | union (variants : List Variant)
  | tuple (elements : List Ty)
  | list (item : Ty)
  | map (kind : MapKind) (key value : Ty)
  | optional (inner : Ty)
  | boxed (inner : Ty)
  | scalar (s : ScalarTy)
  | dynamic
  | foreign
  deriving Inhabited

def Shape.kind : Shape → TypeKind
  | record .. => .record
  | union _ => .union
  | tuple _ => .tuple
  | list _ => .list
  | map .. => .map
  | optional _ => .optional
  | boxed _ => .boxed
  | scalar _ => .scalar
  | dynamic => .dynamic
  | foreign => .foreign

def Definition.shape : Definition → Shape
  | record fields positional => .record fields positional
  | union variants => .union variants
  | dynamic => .dynamic
  | foreign => .foreign

namespace Schema

variable (S : Schema)

def declaration? (id : String) : Option Declaration := Keyed.get? id S.declarations

def shape : Ty → Shape
  | .scalar s => .scalar s
  | .dynamic => .dynamic
  | .optional t => .optional t
  | .boxed t => .boxed t
  | .list _ t => .list t
  | .map k s t => .map k s t
  | .tuple ts => .tuple ts
  | .declared id =>
    match S.declaration? id with
    | some d => d.definition.shape
    | none => .foreign

def kind (t : Ty) : TypeKind := (S.shape t).kind

mutual

def names : Ty → TypeNames
  | .scalar s => s.names
  | .dynamic => .qualified "serde_json" "Value"
  | .optional t => .applied "core::option" "Option" [names t]
  | .boxed t => .applied "alloc::boxed" "Box" [names t]
  | .list .vector t => .applied "alloc::vec" "Vec" [names t]
  | .list .deque t => .applied "alloc::collections::vec_deque" "VecDeque" [names t]
  | .map .unordered s t => .applied "std::collections::hash_map" "HashMap" [names s, names t]
  | .map .ordered s t => .applied "alloc::collections::btree_map" "BTreeMap" [names s, names t]
  | .tuple ts => .tuple (namesList ts)
  | .declared id =>
    match S.declaration? id with
    | some d => d.names
    | none => .plain id

def namesList : List Ty → List TypeNames
  | [] => []
  | t :: ts => names t :: namesList ts

end

def path (t : Ty) : String := (S.names t).path

def name (t : Ty) : String := (S.names t).name

def ident (t : Ty) : String := (S.names t).ident

/-- The type arguments of a type, each with the name of its parameter. -/
def generics : Ty → List (String × Ty)
  | .scalar _ | .dynamic => []
  | .optional t | .boxed t | .list _ t => [("T", t)]
  | .map _ s t => [("K", s), ("V", t)]
  | .tuple ts => ts.mapIdx fun i t => ("P" ++ toString i, t)
  | .declared id =>
    match S.declaration? id with
    | some d =>
      match d.definition with
      | .record .. | .union _ => d.generics
      | .dynamic | .foreign => []
    | none => []

/-- The types within the declarations. -/
def declaredParts : List Ty :=
  S.declarations.flatMap fun (id, d) =>
    .declared id :: (d.generics.flatMap fun (_, t) => t.parts) ++
      match d.definition with
      | .record fields _ => fields.flatMap fun f => f.ty.parts
      | .union variants => variants.flatMap fun v => v.ty.parts
      | .dynamic | .foreign => []

/-- The fields of a record type. -/
def fields (t : Ty) : Except KindMismatch (List Field × Bool) :=
  match S.shape t with
  | .record fields positional => .ok (fields, positional)
  | s => .error ⟨.record, s.kind⟩

def variants (t : Ty) : Except KindMismatch (List Variant) :=
  match S.shape t with
  | .union variants => .ok variants
  | s => .error ⟨.union, s.kind⟩

def elements (t : Ty) : Except KindMismatch (List Ty) :=
  match S.shape t with
  | .tuple ts => .ok ts
  | s => .error ⟨.tuple, s.kind⟩

def item (t : Ty) : Except KindMismatch Ty :=
  match S.shape t with
  | .list t => .ok t
  | s => .error ⟨.list, s.kind⟩

def entry (t : Ty) : Except KindMismatch (MapKind × Ty × Ty) :=
  match S.shape t with
  | .map k s t => .ok (k, s, t)
  | s => .error ⟨.map, s.kind⟩

def option (t : Ty) : Except KindMismatch Ty :=
  match S.shape t with
  | .optional t => .ok t
  | s => .error ⟨.optional, s.kind⟩

def box (t : Ty) : Except KindMismatch Ty :=
  match S.shape t with
  | .boxed t => .ok t
  | s => .error ⟨.boxed, s.kind⟩

def scalar (t : Ty) : Except KindMismatch ScalarTy :=
  match S.shape t with
  | .scalar s => .ok s
  | s => .error ⟨.scalar, s.kind⟩

/-- Checks that a type is of a kind. -/
def expect (expected : TypeKind) (t : Ty) : Except KindMismatch Unit :=
  if S.kind t = expected then .ok () else .error ⟨expected, S.kind t⟩

end Schema

/-- The number of leading elements that a positional record cannot do without: all fields up to the
last one without a default. -/
def requiredLength : List Field → Nat
  | [] => 0
  | f :: fs =>
    let rest := requiredLength fs
    if rest = 0 ∧ f.default.isSome then 0 else rest + 1

end TreeCodec
