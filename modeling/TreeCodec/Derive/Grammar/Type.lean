import TreeCodec.Derive.Grammar.Bound

/-!
Types.
-/
namespace TreeCodec.Derive.Rules

variable (r : Rules)

open Reader

/-- The form of an object type from the forms of its bounds. -/
def objectForm (bounds : List BoundForm × Bool) : TypeForm :=
  .object (bounds.1.length = 1 && !bounds.2)

/-- The bounds of an object type. One of them has to be a trait. -/
def objectBounds (sum : Bool) : Reader (List BoundForm × Bool) := do
  let bounds ← r.bounds sum false false
  if !bounds.1.contains .trait then misplaced .objectWithoutTrait
  return bounds

/-- More bounds after a first one in parentheses. Tells whether there are any. -/
def moreBounds : Reader Bool := do
  let more ← repeated do
    if ← accept (.mark "+") then return some (← r.bound false false)
    return none
  return !more.isEmpty

/-- More bounds after a path, of which the last may be left out. -/
def moreBoundsAfterPath : Reader Unit := do
  let _ ← repeated do
    if !(← accept (.mark "+")) then return none
    if !(← seesBound false) then return none
    let _ ← r.bound false false
    return some ()

/-- A call whose arguments are tokens, from behind its path, if a `!` comes next. -/
def invocation? (p : PathForm) : Reader (Option Bool) := do
  if p.plain && (← sees (.mark "!")) && !(← sees (.mark "!=")) then
    mark "!"
    return some ((← anyGroup) = .brace)
  return none

/-- What stands in the parentheses of a type. -/
inductive EnclosedForm where
  | complete
  -- A bound that other bounds may follow.
  | relaxed
  | single (form : TypeForm)

def enclosedType : Reader EnclosedForm := do
  if ← atEnd then return .complete
  if ← sees .lifetime then
    let _ ← r.objectBounds true
    return .complete
  if ← sees (.mark "?") then
    let _ ← r.traitBound false
    return .relaxed
  let first ← r.type true
  if !(← sees (.mark ",")) then return .single first
  mark ","
  let _ ← listed (r.type true)
  return .complete

/-- A form in parentheses, once if it stands in them twice. -/
def enclosedOnce : List Token → List Token
  | [.group .parenthesis [.group .parenthesis form]] => [.group .parenthesis form]
  | form => form

/-- A type in parentheses, a tuple, or bounds of which the first stands in parentheses. -/
def parenthesizedType (sum : Bool) : Reader TypeForm := do
  let (form, written) ← capture (inside .parenthesis r.enclosedType)
  let isBound :=
    match form with
    | .single form => form = .name || form = .path || form = .object true
    | _ => false
  if sum && isBound && (← sees (.mark "+")) then
    write (enclosedOnce written)
    return .object (!(← r.moreBounds))
  write written
  match form with
  | .relaxed => return .object (!(← r.moreBounds))
  | _ => return .other

/-- A parameter of a function type. -/
def functionParameter (first : Bool) : Reader Unit := do
  let isChangeable := first && (← sees (.keyword "mut")) && (← seesSecond (.keyword "self"))
  let _ ← asItStandsIf (fun _ => isChangeable) do
    if isChangeable then keyword "mut"
    let named ← seesAny
      ([.identifier, .keyword "_"] ++ if first then [.keyword "self"] else [])
    if named && (← seesSecond (.mark ":")) && !(← seesSecond (.mark "::")) then
      let _ ← anyWord
      mark ":"
    r.type true

/-- The dots that stand for any further parameters, perhaps with a name. -/
def seesDots : Reader Bool := do
  if ← sees (.mark "...") then return true
  return (← seesAny [.identifier, .keyword "_"]) && (← seesSecond (.mark ":")) &&
    (← seesThird (.mark "..."))

def dots : Reader Unit := do
  if ← seesAny [.identifier, .keyword "_"] then
    let _ ← anyWord
    mark ":"
  mark "..."
  let _ ← accept (.mark ",")

def functionParameters : Nat → (first : Bool) → Reader Unit
  | 0, _ => return
  | n + 1, first => do
    if ← atEnd then return
    let _ ← r.attributes
    if ← seesDots then dots
    else
      r.functionParameter first
      if !(← atEnd) then
        mark ","
        functionParameters n false

/-- `extern`, perhaps with the name of a convention, if it comes next. -/
def convention : Reader Unit := do
  if ← accept (.keyword "extern") then
    let _ ← accept .text

def functionType : Reader Unit := do
  let _ ← accept (.keyword "unsafe")
  convention
  keyword "fn"
  inside .parenthesis do r.functionParameters ((← rest).length + 1) true
  if ← accept (.mark "->") then
    let _ ← r.type false

/-- A type that starts with a path. -/
def pathType (quantified sum : Bool) : Reader TypeForm := do
  match ← r.qualifiedPath false with
  | none => return .other
  | some p =>
    if (← invocation? p).isSome then return .other
    if sum && (← sees (.mark "+")) then
      r.moreBoundsAfterPath
      return .object false
    if quantified then return .object true
    return if p.names.length = 1 && !p.rooted then .name else .path

/-- What a type can start with. -/
def typeStarts : List Terminal := [
  .keyword "for", .group .parenthesis, .keyword "fn", .keyword "unsafe", .keyword "extern",
  .identifier, .mark "::", .mark "<", .keyword "dyn", .group .bracket, .mark "*", .mark "&",
  .mark "!", .keyword "impl", .keyword "_", .lifetime]

/-- What can follow `for<…>` in a type. -/
def quantifiedStarts : List Terminal := [
  .identifier, .keyword "fn", .keyword "unsafe", .keyword "extern", .keyword "super",
  .keyword "self", .keyword "Self", .keyword "crate"]

def pathStarts : List Terminal := [
  .identifier, .keyword "super", .keyword "self", .keyword "Self", .keyword "crate", .mark "::",
  .mark "<"]

def oneType (sum : Bool) : Reader TypeForm := do
  let quantified ← r.quantifier
  if quantified && !(← seesAny quantifiedStarts) then refuse quantifiedStarts
  if ← sees (.group .parenthesis) then r.parenthesizedType sum
  else if ← seesAny [.keyword "fn", .keyword "unsafe", .keyword "extern"] then
    r.functionType
    return .other
  else if ← seesAny pathStarts then r.pathType quantified sum
  else if ← sees (.keyword "dyn") then
    let _ ← asItStandsIf id do
      keyword "dyn"
      let starred ← accept (.mark "*")
      let _ ← r.objectBounds sum
      return starred
    return .other
  else if ← sees (.group .bracket) then
    inside .bracket do
      let _ ← r.type true
      if ← accept (.mark ";") then
        let _ ← r.expression true
    return .other
  else if ← accept (.mark "*") then
    if !((← accept (.keyword "const")) || (← accept (.keyword "mut"))) then
      refuse [.keyword "const", .keyword "mut"]
    let _ ← r.type false
    return .other
  else if ← accept (.mark "&") then
    let _ ← accept .lifetime
    let _ ← accept (.keyword "mut")
    let _ ← r.type false
    return .other
  else if ← accept (.mark "!") then return .other
  else if ← accept (.keyword "impl") then
    let bounds ← r.bounds sum true true
    if !bounds.1.contains .trait then misplaced .boundWithoutTrait
    return .other
  else if ← accept (.keyword "_") then return .other
  else if ← sees .lifetime then return objectForm (← r.objectBounds true)
  else refuse typeStarts

end TreeCodec.Derive.Rules
