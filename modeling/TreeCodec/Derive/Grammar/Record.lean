import TreeCodec.Derive.Grammar.Expression

/-!
Records, enums and overlays, as values and as they are written down.
-/
namespace TreeCodec.Derive.Rules

variable (r : Rules)

open Reader

/-! ### Fields and variants -/

/-- The type of a field. Only a field without a name can have fields of its own in place of a
type. -/
def fieldType (nameless : Bool) : Reader Unit := do
  let nested := (← sees (.keyword "struct")) ||
    ((← sees (.keyword "union")) && (← seesSecond (.group .brace)))
  if nameless && nested then
    asItStands do
      let _ ← anyWord
      let _ ← r.fields
  else
    let _ ← r.type true

def namedField : Reader Field := do
  let attributes ← r.attributes
  let _ ← visibility
  let nameless ← sees (.keyword "_")
  let name ← if nameless then anyWord else identifier
  mark ":"
  let (_, type) ← capture (r.fieldType nameless)
  write type
  return ⟨name, type, attributes⟩

def namedFields : Reader (List Field) := inside .brace (listed r.namedField)

/-- A field without a name: its type. -/
def unnamedField : Reader (List Token) := do
  let _ ← r.attributes
  let _ ← visibility
  let (_, type) ← capture (r.type true)
  write type
  return type

def unnamedFields : Reader (List (List Token)) := inside .parenthesis (listed r.unnamedField)

def payload : Reader Payload := do
  if ← sees (.group .brace) then
    let _ ← r.fields
    return .named
  if ← sees (.group .parenthesis) then return .unnamed (← r.unnamedFields)
  return .absent

/-- A variant, which may have a number. A visibility is not written down. -/
def variant : Reader Variant := do
  let attributes ← r.attributes
  let _ ← silently visibility
  let name ← identifier
  let payload ← r.payload
  if ← accept (.mark "=") then r.wholeExpression
  return ⟨name, payload, attributes⟩

/-! ### Bodies -/

/-- The body of a record, with the predicates, which come after fields without names and before
others. -/
def recordBody : Reader (List (List Token) × Body) := do
  if ← sees (.group .parenthesis) then
    let _ ← r.unnamedFields
    let starts : List Terminal := if ← sees (.keyword "where") then [] else [.keyword "where"]
    let predicates ← r.whereClause
    if !(← sees (.mark ";")) then refuse (starts ++ [.mark ";"])
    mark ";"
    return (predicates, .unnamed)
  let starts : List Terminal :=
    if ← sees (.keyword "where") then [] else [.keyword "where", .group .parenthesis]
  let predicates ← r.whereClause
  if ← sees (.group .brace) then return (predicates, .record (← r.fields))
  if ← accept (.mark ";") then return (predicates, .unit)
  refuse (starts ++ [.group .brace, .mark ";"])

/-- A record, from its first word on. -/
def recordItem (attributes : List Attribute) : Reader Item := do
  keyword "struct"
  let name ← identifier
  let parameters ← r.parameters
  let (predicates, body) ← r.recordBody
  return ⟨name, attributes, parameters, predicates, body⟩

def enumItem (attributes : List Attribute) : Reader Item := do
  keyword "enum"
  let name ← identifier
  let parameters ← r.parameters
  let predicates ← r.whereClause
  let variants ← inside .brace (listed r.variant)
  return ⟨name, attributes, parameters, predicates, .enumeration variants⟩

def overlayItem (attributes : List Attribute) : Reader Item := do
  keyword "union"
  let name ← identifier
  let parameters ← r.parameters
  let predicates ← r.whereClause
  let _ ← r.fields
  return ⟨name, attributes, parameters, predicates, .overlay⟩

/-- An item that has values of its own. -/
def dataItem : Reader Item := do
  let attributes ← r.attributes
  let _ ← visibility
  if ← sees (.keyword "struct") then r.recordItem attributes
  else if ← sees (.keyword "enum") then r.enumItem attributes
  else if ← sees (.keyword "union") then r.overlayItem attributes
  else refuse [.keyword "struct", .keyword "enum", .keyword "union"]

end TreeCodec.Derive.Rules
