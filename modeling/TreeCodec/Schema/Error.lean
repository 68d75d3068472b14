/-!
What can go wrong when values are built and read without knowing their types.
-/
namespace TreeCodec

inductive ScalarKind where
  | bool | int | uint | float | char | str
  deriving DecidableEq, Repr

def ScalarKind.text : ScalarKind → String
  | bool => "bool"
  | int => "int"
  | uint => "uint"
  | float => "float"
  | char => "char"
  | str => "str"

inductive SchemaError where
  | missingValue (owner : String) (index : Nat)
  | extraValues (owner : String) (supplied expected : Nat)
  | fieldType (owner : String) (index : Nat) (expected : String)
  | valueType (expected : String)
  | outOfRange (ty value : String)
  | scalarKind (ty : String) (received : ScalarKind)
  | noVariant (owner : String) (index : Nat)
  deriving DecidableEq, Repr

/-- The name under which a reader of reports finds the kind of an error. -/
def SchemaError.code : SchemaError → String
  | missingValue .. => "MissingValue"
  | extraValues .. => "ExtraValues"
  | fieldType .. => "FieldType"
  | valueType .. => "ValueType"
  | outOfRange .. => "OutOfRange"
  | scalarKind .. => "ScalarKind"
  | noVariant .. => "NoVariant"

def SchemaError.message : SchemaError → String
  | missingValue owner index =>
    "`" ++ owner ++ "` expected a value for field #" ++ toString index ++ ", but none was supplied"
  | extraValues owner supplied expected =>
    "`" ++ owner ++ "` received " ++ toString supplied ++ " field values, expected " ++
      toString expected
  | fieldType owner index expected =>
    "`" ++ owner ++ "` field #" ++ toString index ++ " is not a `" ++ expected ++ "`"
  | valueType expected => "value is not a `" ++ expected ++ "`"
  | outOfRange ty value => "scalar " ++ value ++ " does not fit in `" ++ ty ++ "`"
  | scalarKind ty received =>
    "`" ++ ty ++ "` cannot be built from a " ++ received.text ++ " scalar"
  | noVariant owner index => "`" ++ owner ++ "` has no variant #" ++ toString index

end TreeCodec
