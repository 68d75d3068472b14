import TreeCodec.Derive.Attribute

/-!
Items of source code: records, enums and overlays.
-/
namespace TreeCodec.Derive

/-- A parameter that stands for a type. -/
structure TypeParameter where
  -- What stands in front of the name.
  attributes : List Token
  name : String
  bounds : List Token

inductive Parameter where
  | lifetime
  | constant
  | type (parameter : TypeParameter)

/-- The parameters of a form. -/
structure Parameters where
  list : List Parameter := []
  -- Whether a comma follows the last one.
  closed : Bool := false

structure Field where
  name : String
  type : List Token
  attributes : List Attribute

inductive Payload where
  | absent
  | unnamed (types : List (List Token))
  | named

structure Variant where
  name : String
  payload : Payload
  attributes : List Attribute

inductive Body where
  | record (fields : List Field)
  | unnamed
  | unit
  | enumeration (variants : List Variant)
  -- Fields that share one place.
  | overlay

structure Item where
  name : String
  attributes : List Attribute
  parameters : Parameters
  -- The predicates of the `where` clause.
  predicates : List (List Token)
  body : Body

end TreeCodec.Derive
