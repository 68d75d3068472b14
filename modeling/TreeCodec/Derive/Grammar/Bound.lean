import TreeCodec.Derive.Grammar.Attribute
import TreeCodec.Derive.Item

/-!
Bounds of types, parameters that types are generic in, and `where` clauses.

Parameters that are lifetimes are written down before the others. An empty list of bounds, of
parameters or of predicates is not written down.
-/
namespace TreeCodec.Derive

namespace Rules

variable (r : Rules)

open Reader

/-! ### Parameters -/

/-- A colon with bounds after it, if there is one. Gives what is written for the bounds. -/
def optionalBounds (bounds : Reader (List Unit)) : Reader (List Token) := do
  let (colon, mark) ← capture (accept (.mark ":"))
  if !colon then return []
  let (_, bounds) ← capture bounds
  if !bounds.isEmpty then write (mark ++ bounds)
  return bounds

def lifetimeParameter : Reader Unit := do
  expect .lifetime
  let stop : Reader Bool := do return (← atEnd) || (← seesAny [.mark ",", .mark ">"])
  let _ ← optionalBounds (joined "+" stop (expect .lifetime))

/-- A bound that may be constant, as most may. -/
def freeBound : Reader Unit := do
  let _ ← r.bound false true

/-- A type parameter from its name on. -/
def typeParameter (attributes : List Token) : Reader TypeParameter := do
  let name ← identifier
  let stop : Reader Bool := do
    return (← atEnd) || (← seesAny [.mark ",", .mark ">", .mark "="])
  let bounds ← optionalBounds (joined "+" stop r.freeBound)
  if ← accept (.mark "=") then
    let _ ← r.type true
  return ⟨attributes, name, bounds⟩

def constantParameter : Reader Unit := do
  keyword "const"
  let _ ← identifier
  mark ":"
  let _ ← r.type true
  if ← accept (.mark "=") then r.constant

/-- A parameter. The one without a name can only stand in the list of a type. -/
def parameter (nameless : Bool) : Reader Parameter := do
  let (_, attributes) ← capture r.attributes
  write attributes
  if ← sees .lifetime then
    lifetimeParameter
    return .lifetime
  if ← sees .identifier then return .type (← r.typeParameter attributes)
  if ← sees (.keyword "const") then
    r.constantParameter
    return .constant
  if nameless && (← sees (.keyword "_")) then return .type ⟨attributes, ← anyWord, []⟩
  if nameless then refuse [.lifetime, .identifier, .keyword "const"]
  else refuse [.identifier, .lifetime, .keyword "const"]

/-- Parameters between `<` and `>`, if there are any. -/
def parameters : Reader Parameters := do
  let (there, opening) ← capture (accept (.mark "<"))
  if !there then return {}
  let parts ← separated "," (sees (.mark ">")) (r.parameter true)
  let (_, closing) ← capture (mark ">")
  if !parts.isEmpty then
    let written := lifetimesFirst (parts.map fun (p, w) => (p matches .lifetime, w))
    write (opening ++ written ++ closing)
  return ⟨parts.map (·.1), (parts.getLast?.map (·.2.2)).getD false⟩

/-- `for<…>`, if it comes next. -/
def quantifier : Reader Bool := do
  if !(← accept (.keyword "for")) then return false
  mark "<"
  let _ ← listedUntil (.mark ">") (r.parameter false)
  mark ">"
  return true

/-- Whether `<` opens parameters rather than a qualified path. -/
def opensParameters (ts : List Token) : Bool :=
  let second (t : Terminal) : Bool := t.second ts
  let third (t : Terminal) : Bool := t.third ts
  (Terminal.mark "<").starts ts &&
    (second (.mark ">") || second (.mark "#") ||
      (second .lifetime || second .identifier) &&
        (third (.mark ">") || third (.mark ",") || third (.mark ":") && !third (.mark "::") ||
          third (.mark "=")) ||
      second (.keyword "const"))

/-! ### Bounds -/

/-- A path that ends in `<>` without them, and without a `::` in front of them. -/
def withoutArguments (path : List Token) : List Token :=
  let path := path.dropLast.dropLast
  match path.getLast? with
  | some (.mark ':' _) => path.dropLast.dropLast
  | _ => path

/-- A bound by a trait. The arguments of a function take the place of an empty list of others. Tells
whether the bound is constant, and so stands as it is written. -/
def traitBound (constant : Bool) : Reader Bool := do
  let quantified ← r.quantifier
  let maybeConstant ← sees (.group .bracket)
  let isConstant ← sees (.keyword "const")
  if maybeConstant then
    inside .bracket (keyword "const")
    if !constant then misplaced .maybeConstBound
  else if isConstant then
    keyword "const"
    if !constant then misplaced .constBound
  let isMaybe ← accept (.mark "?")
  let quantified ← if isMaybe && !quantified then r.quantifier else pure quantified
  let (p, path) ← capture (r.path false)
  let function := (← sees (.group .parenthesis)) ||
    ((← sees (.mark "::")) && (← seesThird (.group .parenthesis)))
  if function && p.arguments ≠ .present then
    write (if p.arguments = .empty then withoutArguments path else path)
    let _ ← silently (accept (.mark "::"))
    r.functionArguments
  else write path
  if quantified && isMaybe then misplaced .quantifiedMaybe
  return maybeConstant || isConstant

/-- A list of captured parameters. -/
def captures : Reader Unit := do
  keyword "use"
  mark "<"
  let part : Reader Bool := do
    if ← accept .lifetime then return true
    if ← seesAny [.identifier, .keyword "Self"] then
      let _ ← anyWord
      return false
    refuse [.lifetime, .identifier, .mark ">"]
  let parts ← repeated do
    if ← sees (.mark ">") then return none
    let (lifetime, written) ← capture part
    if ← sees (.mark ">") then return some (lifetime, written, false)
    if !(← sees (.mark ",")) then refuse [.mark ",", .mark ">"]
    let (_, comma) ← capture (mark ",")
    return some (lifetime, written ++ comma, true)
  write (lifetimesFirst parts)
  mark ">"

def oneBound (capture constant : Bool) : Reader BoundForm := do
  if ← accept .lifetime then return .lifetime
  if ← sees (.keyword "use") then
    captures
    if capture then return .capture else misplaced .capture
  let _ ← asItStandsIf id do
    if ← sees (.group .parenthesis) then inside .parenthesis (r.traitBound constant)
    else r.traitBound constant
  return .trait

/-- Whether another bound may follow a `+`. -/
def seesBound (constant : Bool) : Reader Bool := do
  if ← seesWord then return true
  if ← seesAny [.mark "::", .mark "?", .lifetime, .group .parenthesis] then return true
  return constant && (← seesAny [.group .bracket, .keyword "const"])

/-- Bounds, one or with a `+` between every two, and whether a `+` follows the last one. -/
def boundsWithin : Nat → (sum capture constant : Bool) → Reader (List BoundForm × Bool)
  | 0, _, _, _ => return ([], false)
  | n + 1, sum, capture, constant => do
    let b ← r.bound capture constant
    if !(sum && (← accept (.mark "+"))) then return ([b], false)
    if !(← seesBound constant) then return ([b], true)
    let (bs, open') ← boundsWithin n sum capture constant
    return (b :: bs, open')

def bounds (sum capture constant : Bool) : Reader (List BoundForm × Bool) := do
  r.boundsWithin ((← rest).length + 1) sum capture constant

/-! ### Predicates -/

/-- Whether predicates, or the bounds of one, end here. -/
def predicateEnds : Reader Bool := do
  if (← atEnd) || (← seesAny [.group .brace, .mark ",", .mark ";", .mark "="]) then return true
  return (← sees (.mark ":")) && !(← sees (.mark "::"))

def predicate : Reader Unit := do
  if (← sees .lifetime) && (← seesSecond (.mark ":")) then
    expect .lifetime
    mark ":"
    let stop : Reader Bool := do return (← predicateEnds) || (← sees (.mark ":"))
    let _ ← joined "+" stop (expect .lifetime)
  else
    let _ ← r.quantifier
    let _ ← r.type true
    mark ":"
    let _ ← joined "+" predicateEnds r.freeBound

/-- A `where` clause, if there is one. Gives what is written for each predicate. -/
def whereClause : Reader (List (List Token)) := do
  let (there, opening) ← capture (accept (.keyword "where"))
  if !there then return []
  if opensParameters (← rest) then misplaced .quantifiedWhere
  let (predicates, written) ← capture (joined "," predicateEnds do
    let (_, written) ← capture r.predicate
    write written
    return written)
  if !predicates.isEmpty then write (opening ++ written)
  return predicates

end Rules

end TreeCodec.Derive
