import TreeCodec.Derive.Error

/-!
Attributes of items, fields and variants.
-/
namespace TreeCodec.Derive

/-- What stands after the path of an attribute. -/
inductive AttributeBody where
  | bare
  | assigned
  | arguments (tokens : List Token)

structure Attribute where
  path : List Token
  body : AttributeBody

namespace Attribute

/-- Whether an attribute is about the schema. -/
def isSchema (a : Attribute) : Bool :=
  match a.path with
  | [.word name] => name = "schema"
  | _ => false

def arguments : AttributeBody → Except DeriveError (List Token)
  | .bare => .error .noArguments
  | .assigned => .error .noParentheses
  | .arguments ts => .ok ts

end Attribute

end TreeCodec.Derive
