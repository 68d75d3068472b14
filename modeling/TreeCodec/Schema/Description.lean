import TreeCodec.Schema.Basic
import TreeCodec.Text.Quoted

/-!
Descriptions of types for the log and for people who debug a schema.
-/
namespace TreeCodec.Schema

open Text

variable (S : Schema)

private def braced (head : String) (parts : List (String × String)) : String :=
  head ++ " \x7b " ++ ", ".intercalate (parts.map fun (k, v) => k ++ ": " ++ v) ++ " \x7d"

private def listed (items : List String) : String := "[" ++ ", ".intercalate items ++ "]"

private def shownParam : Option Nat → String
  | none => "None"
  | some n => "Some(" ++ toString n ++ ")"

def describeGenerics (t : Ty) : String :=
  listed ((S.generics t).map fun (param, u) => param ++ " = " ++ S.path u)

def describeField (f : Field) : String :=
  braced "NamedField" [("name", quoted f.name), ("key", quoted f.key), ("ty", S.path f.ty),
    ("has_default", toString f.default.isSome), ("generic_param", shownParam f.param)]

def describeVariant (v : Variant) : String := v.name ++ "(" ++ S.path v.ty ++ ")"

/-- A type with its generics and the structure it was declared with. -/
def describe (t : Ty) : String :=
  let ty := ("ty", S.path t)
  let generics := ("generics", S.describeGenerics t)
  match S.shape t with
  | .record fields positional =>
    "Record(" ++ braced "RecordInfo" [ty, generics,
      ("fields", listed (fields.map S.describeField)), ("positional", toString positional)] ++ ")"
  | .union variants =>
    "Union(" ++ braced "UnionInfo" [ty, generics,
      ("variants", listed (variants.map S.describeVariant))] ++ ")"
  | .tuple _ => "Tuple(" ++ braced "TupleInfo" [ty, generics] ++ ")"
  | .list _ => "List(" ++ braced "ListInfo" [ty, generics] ++ ")"
  | .map .. => "Map(" ++ braced "MapInfo" [ty, generics] ++ ")"
  | .optional _ => "Optional(" ++ braced "OptionalInfo" [ty, generics] ++ ")"
  | .boxed _ => "Boxed(" ++ braced "BoxedInfo" [ty, generics] ++ ")"
  | .scalar s =>
    let kind := match s with
      | .bool => "Bool"
      | .char => "Char"
      | .int i => if i.isSigned then "Int" else "UInt"
      | .float _ => "Float"
      | .string => "Str"
    "Scalar(" ++ braced "ScalarInfo" [ty, ("kind", kind)] ++ ")"
  | .dynamic => "Dynamic(" ++ braced "DynamicInfo" [ty] ++ ")"
  | .foreign => "Opaque(" ++ braced "OpaqueInfo" [ty] ++ ")"

end TreeCodec.Schema
