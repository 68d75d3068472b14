import TreeCodec.Derive.Grammar.Type

/-!
Patterns.

A range with three dots is written down with two and `=`.
-/
namespace TreeCodec.Derive.Rules

variable (r : Rules)

open Reader

/-- The place of a field, which is written down in plain decimal digits. -/
def index : Reader Unit := do
  match Token.literal? (← rest), ← rest with
  | some (.integer n, _), .literal l :: _ =>
    if l.suffix ≠ "" then misplaced .suffixedIndex
    if 0x100000000 ≤ n then misplaced .largeIndex
    silently (take 1)
    write [.literal ⟨toString n, .integer n, ""⟩]
  | some (.integer _, _), .mark .. :: .literal l :: _ =>
    misplaced (if l.suffix ≠ "" then .suffixedIndex else .negativeIndex)
  | _, _ => fail [.terminal .integer]

/-- The name of a field, or its place. Tells whether it is a name. -/
def member : Reader Bool := do
  if ← sees .identifier then
    let _ ← identifier
    return true
  if !(← sees .integer) then fail [.member]
  index
  return false

/-- Alternatives between `|`. A `|` may also come first. -/
def alternatives : Reader PatternForm := do
  let leading ← accept (.mark "|")
  let first ← r.pattern
  let more ← repeated do
    if (← sees (.mark "|")) && !(← seesAny [.mark "||", .mark "|="]) then
      mark "|"
      return some (← r.pattern)
    return none
  return if leading || !more.isEmpty then .other else first

/-- The dots of a range. Tells whether the range includes its end. -/
def rangeDots : Reader Bool := do
  if ← accept (.mark "..=") then return true
  if ← sees (.mark "...") then refuse [.mark "..", .mark "..="]
  if ← accept (.mark "..") then return false else refuse [.mark "..", .mark "..="]

/-- The dots of a range in a pattern, of which there may be three. -/
def patternRangeDots : Reader Bool := do
  if ← sees (.mark "...") then
    silently (mark "...")
    write [.mark '.' true, .mark '.' true, .lone '=']
    return true
  rangeDots

/-- What can start an end of a range. -/
def rangeBoundStarts : List Terminal := [
  .literal, .identifier, .mark "::", .mark "<", .keyword "self", .keyword "Self",
  .keyword "super", .keyword "crate", .keyword "const"]

/-- An end of a range, if there is one. -/
def rangeBound : Reader Bool := do
  let ends := (← atEnd) || (← seesAny [.mark "|", .mark "=", .mark ",", .mark ";", .keyword "if"])
  if ends || ((← sees (.mark ":")) && !(← sees (.mark "::"))) then return false
  if ← accept .literal then return true
  if !(← seesAny rangeBoundStarts) then refuse rangeBoundStarts
  if ← accept (.keyword "const") then r.ownBlock
  else
    let _ ← r.qualifiedPath true
  return true

/-- The end of a range that has a start, from its dots on. -/
def patternRangeEnd : Reader PatternForm := do
  let closed ← patternRangeDots
  let ended ← r.rangeBound
  if closed && !ended then fail [.upperBound]
  return if ended then .other else .halfRange

/-- A range without a start, or the dots that stand for all that remains. -/
def startlessRange : Reader PatternForm := do
  let closed ← rangeDots
  if ← r.rangeBound then return .halfRange
  if closed then fail [.upperBound] else return .remainder

/-- The pattern of one field. A field stands for a name of its own unless a pattern is given. -/
def fieldPattern : Reader Unit := do
  let boxed ← accept (.keyword "box")
  let byReference ← accept (.keyword "ref")
  let changeable ← accept (.keyword "mut")
  if boxed || byReference || changeable then
    let _ ← identifier
  else
    let named ← member
    if (← sees (.mark ":")) || !named then
      mark ":"
      let _ ← r.alternatives

def recordPattern : Reader Unit := inside .brace do
  let _ ← repeated do
    if ← atEnd then return none
    let _ ← r.attributes
    if ← accept (.mark "..") then return none
    r.fieldPattern
    if !(← atEnd) then mark ","
    return some ()

/-- A pattern that starts with a path. -/
def pathPattern : Reader PatternForm := do
  if let some p ← r.qualifiedPath true then
    if (← invocation? p).isSome then return .other
  if ← sees (.group .brace) then
    r.recordPattern
    return .other
  if ← sees (.group .parenthesis) then
    let _ ← inside .parenthesis (listed r.alternatives)
    return .other
  if ← sees (.mark "..") then r.patternRangeEnd else return .other

/-- A pattern that starts with a literal or a constant. -/
def constantPattern : Reader PatternForm := do
  let _ ← r.rangeBound
  if ← sees (.mark "..") then r.patternRangeEnd else return .other

/-- A new name, perhaps with a pattern for what it stands for. -/
def namePattern : Reader Unit := do
  let _ ← accept (.keyword "ref")
  let _ ← accept (.keyword "mut")
  let _ ← if ← sees (.keyword "self") then anyWord else identifier
  if ← accept (.mark "@") then
    let _ ← r.pattern

def slicePattern : Reader Unit := inside .bracket do
  let _ ← listed do
    if (← r.alternatives) = .halfRange then misplaced .halfOpenRange

/-- Whether a path comes next, rather than a new name. -/
def seesPathPattern : Reader Bool := do
  if ← seesAny [.mark "::", .mark "<", .keyword "Self", .keyword "super", .keyword "crate"] then
    return true
  if (← sees (.keyword "self")) && (← seesSecond (.mark "::")) then return true
  let followers : List Terminal :=
    [.mark "::", .mark "!", .group .brace, .group .parenthesis, .mark ".."]
  return (← sees .identifier) && (← followers.anyM seesSecond)

/-- What a pattern can start with. -/
def patternStarts : List Terminal := [
  .identifier, .mark "::", .mark "<", .keyword "_", .literal, .keyword "const", .keyword "ref",
  .keyword "mut", .mark "&", .group .parenthesis, .group .bracket, .mark "..", .keyword "const"]

def onePattern : Reader PatternForm := do
  if ← seesPathPattern then r.pathPattern
  else if ← accept (.keyword "_") then return .other
  else if ← sees (.keyword "box") then
    asItStands do
      keyword "box"
      let _ ← r.pattern
    return .other
  else if ← seesAny [.mark "-", .literal, .keyword "const"] then r.constantPattern
  else if ← seesAny [.keyword "ref", .keyword "mut", .keyword "self", .identifier] then
    r.namePattern
    return .other
  else if ← accept (.mark "&") then
    let _ ← accept (.keyword "mut")
    let _ ← r.pattern
    return .other
  else if ← sees (.group .parenthesis) then
    let _ ← inside .parenthesis (listed r.alternatives)
    return .other
  else if ← sees (.group .bracket) then
    r.slicePattern
    return .other
  else if (← sees (.mark "..")) && !(← sees (.mark "...")) then r.startlessRange
  else refuse patternStarts

end TreeCodec.Derive.Rules
