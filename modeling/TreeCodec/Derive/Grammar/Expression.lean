import TreeCodec.Derive.Grammar.Pattern
import TreeCodec.Derive.Scan

/-!
Expressions.

An expression is an operand and the operators after it. An operand is an atom with prefix operators
in front and calls, accesses and the like behind. Where a block may follow, a record at the end of
an expression has to stand in parentheses, so most rules take whether records may stand there.
-/
namespace TreeCodec.Derive.Rules

variable (r : Rules)

open Reader

/-- A whole expression, whatever its form. -/
def wholeExpression : Reader Unit := do
  let _ ← r.expression true

/-- An expression with a block after it. -/
def condition : Reader Unit := do
  let _ ← r.expression false

/-- Whether an expression can start here. -/
def seesExpression : Reader Bool := do
  let without (t : Terminal) (ts : List Terminal) : Reader Bool := do
    return (← sees t) && !(← seesAny ts)
  if ← seesWord then return !(← sees (.keyword "as"))
  if ← seesAny [.group .parenthesis, .group .bracket, .group .brace, .literal, .mark "..",
      .mark "::", .lifetime, .mark "#"] then return true
  if ← without (.mark "!") [.mark "!="] then return true
  if ← without (.mark "-") [.mark "-=", .mark "->"] then return true
  if ← without (.mark "*") [.mark "*="] then return true
  if ← without (.mark "|") [.mark "|="] then return true
  if ← without (.mark "&") [.mark "&="] then return true
  without (.mark "<") [.mark "<=", .mark "<<="]

/-! ### Operators -/

def assignments : List String :=
  ["+=", "-=", "*=", "/=", "%=", "^=", "&=", "|=", "<<=", ">>="]

/-- The operators between two operands, each before those it starts with. -/
def operatorTable : List (String × Precedence) :=
  assignments.map (·, .assignment) ++ [
    ("&&", .and), ("||", .or), ("<<", .shift), (">>", .shift), ("==", .comparison),
    ("<=", .comparison), ("!=", .comparison), (">=", .comparison), ("+", .sum), ("-", .sum),
    ("*", .product), ("/", .product), ("%", .product), ("^", .bitXor), ("&", .bitAnd),
    ("|", .bitOr), ("<", .comparison), (">", .comparison)]

def nextOperator? : Reader (Option (String × Precedence)) := do
  let next ← rest
  return operatorTable.find? fun (spelling, _) => (Terminal.mark spelling).starts next

/-- Whether a single `=` comes next. -/
def seesAssignment : Reader Bool := return (← sees (.mark "=")) && !(← sees (.mark "=>"))

/-- How tightly the next operator binds. -/
def nextPrecedence : Reader Precedence := do
  if let some (_, p) ← nextOperator? then return p
  if ← seesAssignment then return .assignment
  if ← sees (.mark "..") then return .range
  if ← sees (.keyword "as") then return .cast
  return .lowest

/-- Operators after a right operand that bind more tightly than the one before it. Assignments group
to the right. -/
def rightOperators (records : Bool) (before : Precedence) : Nat → Form → Reader Form
  | 0, form => return form
  | n + 1, form => do
    let next ← nextPrecedence
    if before.rank < next.rank || (next = before && before = .assignment) then
      let left := (← rest).length
      let form ← r.operators form records next
      if (← rest).length = left then return form
      rightOperators records before n form
    else return form

def rightOperand (records : Bool) (before : Precedence) : Reader Unit := do
  let form ← r.operand records
  let _ ← r.rightOperators records before ((← rest).length + 1) form

/-- What ends a range without a last element. -/
def rangeStops : List Terminal := [
  .mark ",", .mark ";", .mark "?", .mark "=>", .mark "=", .mark "+", .mark "/", .mark "%",
  .mark "^", .mark ">", .mark "<=", .mark "!=", .mark "-=", .mark "*=", .mark "&=", .mark "|=",
  .mark "<<=", .keyword "as"]

/-- The end of a range, from behind its dots. Tells whether there is one. -/
def rangeEnd (records closed : Bool) : Reader Bool := do
  let stops := (← atEnd) || (← seesAny rangeStops) ||
    ((← sees (.mark ".")) && !(← sees (.mark ".."))) || (!records && (← sees (.group .brace)))
  if !closed && stops then return false
  r.rightOperand records .range
  return true

def range (records : Bool) : Reader Form := do
  let closed ← rangeDots
  return .range (← r.rangeEnd records closed)

/-- Fails on what looks like a part of the type of a cast. -/
def endCast : Reader Unit := do
  if (← sees (.mark ".")) && !(← sees (.mark "..")) then
    if ← seesSecond (.keyword "await") then misplaced (.castFollower .await)
    if (← seesSecond .identifier) &&
        ((← seesThird (.group .parenthesis)) || (← seesThird (.mark "::"))) then
      misplaced (.castFollower .methodCall)
    misplaced (.castFollower .fieldAccess)
  if ← sees (.mark "?") then misplaced (.castFollower .question)
  if ← sees (.group .bracket) then misplaced (.castFollower .index)
  if ← sees (.group .parenthesis) then misplaced (.castFollower .call)

/-- The next operator with its right operand, if it binds at least as tightly as the base. -/
def operation? (left : Form) (records : Bool) (base : Precedence) : Reader (Option Form) := do
  if left = .range true then return none
  match ← nextOperator? with
  | some (spelling, p) =>
    if p.rank < base.rank || (p = .assignment && left.isRange) then return none
    if p = .comparison && left = .comparison then misplaced .chainedComparison
    mark spelling
    r.rightOperand records p
    return some (if p = .comparison then .comparison else .other)
  | none =>
    if base.rank ≤ Precedence.assignment.rank && (← seesAssignment) && !left.isRange then
      mark "="
      r.rightOperand records .assignment
      return some .other
    if base.rank ≤ Precedence.range.rank && (← sees (.mark "..")) then
      return some (← r.range records)
    if base.rank ≤ Precedence.cast.rank && (← accept (.keyword "as")) then
      let _ ← r.type false
      endCast
      return some .other
    return none

def operatorsWithin (records : Bool) (base : Precedence) : Nat → Form → Reader Form
  | 0, form => return form
  | n + 1, form => do
    match ← r.operation? form records base with
    | some form => operatorsWithin records base n form
    | none => return form

/-- All operators after an operand that bind at least as tightly as the base. -/
def allOperators (form : Form) (records : Bool) (base : Precedence) : Reader Form := do
  r.operatorsWithin records base ((← rest).length + 1) form

def oneExpression (records : Bool) : Reader Form := do
  r.operators (← r.operand records) records .lowest

/-! ### What follows an atom -/

/-- Indices that were read as one number with points. A point at the end belongs to what follows;
tells whether there is none. -/
def joinedIndices (spelling : String) : Reader Bool := do
  let parts := spelling.splitOn "."
  let pending := parts.getLast? = some ""
  let parts := if pending then parts.dropLast else parts
  let indices ← parts.mapM fun part =>
    match Token.scan? part with
    | some ts => (readAll index ts).map (·.2)
    | none => throw .unreadable
  write ([Token.lone '.'].intercalate indices)
  if pending then write [.lone '.']
  return !pending

def callArguments : Reader Unit := do
  let _ ← inside .parenthesis (listed r.wholeExpression)

/-- A field, a method call or `await`, from its point on. -/
def access : Reader Unit := do
  mark "."
  let done ← match ← rest with
    | .literal l :: _ =>
      if l.kind = .decimal then
        silently (take 1)
        joinedIndices l.spelling
      else pure false
    | .mark '-' _ :: .literal l :: _ =>
      if l.kind = .decimal then joinedIndices ("-" ++ l.spelling) else pure false
    | _ => pure false
  if done || (← accept (.keyword "await")) then return
  let named ← member
  let generic ← if named then accept (.mark "::") else pure false
  if generic then
    let _ ← r.arguments
  if named && (generic || (← sees (.group .parenthesis))) then r.callArguments

/-- One call, access, index or `?`. After a range only the first and the third can stand. -/
def trailer (afterRange : Bool) : Reader Bool := do
  if ← sees (.group .parenthesis) then
    r.callArguments
    return true
  if (← sees (.mark ".")) && !(← sees (.mark "..")) && !afterRange then
    r.access
    return true
  if ← sees (.group .bracket) then
    inside .bracket r.wholeExpression
    return true
  if afterRange then return false
  accept (.mark "?")

/-- What follows an atom. -/
def trailers (form : Form) : Reader Form := do
  if !(← r.trailer form.isRange) then return form
  let _ ← repeated do
    if ← r.trailer false then return some ()
    return none
  return .other

/-! ### Atoms -/

def fieldValue : Reader Unit := do
  let _ ← r.attributes
  let named ← member
  if (← sees (.mark ":")) || !named then
    mark ":"
    r.wholeExpression

/-- The fields of a record, and perhaps another record that gives the remaining ones. -/
def recordFields : Reader Unit := inside .brace do
  let _ ← repeated do
    if ← atEnd then return none
    if ← accept (.mark "..") then
      if !(← atEnd) then r.wholeExpression
      return none
    r.fieldValue
    if !(← atEnd) then mark ","
    return some ()

/-- A path, a call whose arguments are tokens, or a record. -/
def pathExpression (records : Bool) : Reader Form := do
  if let some p ← r.qualifiedPath true then
    if let some braces ← invocation? p then return .invocation braces
  if records && (← sees (.group .brace)) then r.recordFields
  return .other

def arrayContents : Reader Unit := do
  if ← atEnd then return
  r.wholeExpression
  if ← atEnd then return
  if ← accept (.mark ",") then
    let _ ← listed r.wholeExpression
  else if ← accept (.mark ";") then r.wholeExpression
  else fail [.terminal (.mark ","), .terminal (.mark ";")]

def closureParameter : Reader Unit := do
  let _ ← r.attributes
  let _ ← r.pattern
  if ← accept (.mark ":") then
    let _ ← r.type true

def closure (records : Bool) : Reader Unit := do
  let _ ← r.quantifier
  for word in ["const", "static", "async", "move"] do
    let _ ← accept (.keyword word)
  mark "|"
  let _ ← listedUntil (.mark "|") r.closureParameter
  mark "|"
  if ← accept (.mark "->") then
    let _ ← r.type true
    r.plainBlock
  else
    let _ ← r.expression records

/-- Whether a `<` after the next word opens parameters. -/
def seesQuantifier : Reader Bool := do
  return (← sees (.keyword "for")) && ((Token.afterOne? (← rest)).map opensParameters).getD false

def seesClosure : Reader Bool := do
  if ← seesAny [.mark "|", .keyword "move", .keyword "static"] then return true
  if ← seesQuantifier then return true
  if ← sees (.keyword "const") then return !(← seesSecond (.group .brace))
  return (← sees (.keyword "async")) &&
    ((← seesSecond (.mark "|")) || (← seesSecond (.keyword "move")))

def seesAsyncBlock : Reader Bool := do
  return (← sees (.keyword "async")) && ((← seesSecond (.group .brace)) ||
    (← seesSecond (.keyword "move")) && (← seesThird (.group .brace)))

def seesTryBlock : Reader Bool := do
  return (← sees (.keyword "try")) && (← seesSecond (.group .brace))

def seesPathExpression : Reader Bool := do
  if ← seesAny pathStarts then return true
  return (← sees (.keyword "try")) && ((← seesSecond (.mark "!")) || (← seesSecond (.mark "::")))

def conditional : Reader Unit := do
  let _ ← repeated do
    keyword "if"
    r.condition
    r.plainBlock
    if !(← accept (.keyword "else")) then return none
    if ← sees (.keyword "if") then return some ()
    if !(← sees (.group .brace)) then refuse [.keyword "if", .group .brace]
    r.plainBlock
    return none

def whileLoop : Reader Unit := do
  keyword "while"
  r.condition
  r.ownBlock

def forLoop : Reader Unit := do
  keyword "for"
  let _ ← r.alternatives
  keyword "in"
  r.condition
  r.ownBlock

def endlessLoop : Reader Unit := do
  keyword "loop"
  r.ownBlock

/-- An arm of a `match`. It needs a comma unless it is a block or the last one. -/
def arm : Reader Unit := do
  let _ ← r.attributes
  let _ ← r.alternatives
  if ← accept (.keyword "if") then r.wholeExpression
  mark "=>"
  let form ← r.clause
  if form.needsComma && !(← atEnd) then mark ","
  else
    let _ ← accept (.mark ",")

def distinction : Reader Unit := do
  keyword "match"
  r.condition
  inside .brace do
    r.innerAttributes
    untilEnd r.arm

/-- A loop or a block with a label. -/
def labelled : Reader Unit := do
  expect .lifetime
  mark ":"
  if ← sees (.keyword "while") then r.whileLoop
  else if ← sees (.keyword "for") then r.forLoop
  else if ← sees (.keyword "loop") then r.endlessLoop
  else if ← sees (.group .brace) then r.ownBlock
  else fail [.labelled]

/-- A form with a block, if one comes next. -/
def blockForm? : Reader (Option Unit) := do
  if ← sees (.keyword "if") then return some (← r.conditional)
  if ← sees (.keyword "while") then return some (← r.whileLoop)
  if (← sees (.keyword "for")) && !(← seesQuantifier) then return some (← r.forLoop)
  if ← sees (.keyword "loop") then return some (← r.endlessLoop)
  if ← sees (.keyword "match") then return some (← r.distinction)
  if ← seesTryBlock then
    keyword "try"
    return some (← r.plainBlock)
  if ← accept (.keyword "unsafe") then return some (← r.ownBlock)
  if (← sees (.keyword "const")) && (← seesSecond (.group .brace)) then
    keyword "const"
    return some (← r.ownBlock)
  if ← sees (.group .brace) then return some (← r.ownBlock)
  if ← sees .lifetime then return some (← r.labelled)
  return none

def binding (records : Bool) : Reader Unit := do
  keyword "let"
  let _ ← r.alternatives
  mark "="
  let form ← r.operand records
  let _ ← r.operators form records .comparison

def breaking (records : Bool) : Reader Unit := do
  keyword "break"
  if (← sees .lifetime) && (← seesSecond (.mark ":")) then
    r.wholeExpression
    misplaced .labelledValue
  let _ ← accept .lifetime
  if (← seesExpression) && (records || !(← sees (.group .brace))) then
    let _ ← r.expression records

/-- `return` or `yield`, from behind the word. -/
def leaving : Reader Unit := do
  if ← seesExpression then r.wholeExpression

/-- A form that the compiler has built in. -/
def builtin : Reader Unit := do
  take 1
  mark "#"
  let _ ← identifier
  inside .parenthesis do take (← rest).length

def atom (records : Bool) : Reader Form := do
  if ← accept .literal then return .other
  if ← seesAsyncBlock then
    keyword "async"
    let _ ← accept (.keyword "move")
    r.plainBlock
    return .other
  if (← seesClosure) && !(← seesTryBlock) then
    r.closure records
    return .other
  if (← sees (.keyword "builtin")) && (← seesSecond (.mark "#")) then
    asItStands builtin
    return .verbatim
  if ← seesPathExpression then return ← r.pathExpression records
  if ← sees (.group .parenthesis) then
    r.callArguments
    return .other
  if ← sees (.keyword "break") then
    r.breaking records
    return .other
  if ← accept (.keyword "continue") then
    let _ ← accept .lifetime
    return .other
  if (← accept (.keyword "return")) || (← accept (.keyword "yield")) then
    r.leaving
    return .other
  if ← sees (.keyword "become") then
    asItStands do
      keyword "become"
      r.wholeExpression
    return .verbatim
  if ← sees (.group .bracket) then
    inside .bracket r.arrayContents
    return .other
  if ← sees (.keyword "let") then
    r.binding records
    return .other
  if let some () ← r.blockForm? then return .block
  if ← sees (.mark "..") then return ← r.range records
  if ← accept (.keyword "_") then return .other
  fail [.expression]

/-- An operand with its prefix operators. -/
def oneOperand (records : Bool) : Reader Form := do
  let attributes ← r.attributes
  if ← accept (.mark "&") then
    let isRaw := (← sees (.keyword "raw")) &&
      ((← seesSecond (.keyword "mut")) || (← seesSecond (.keyword "const")))
    if isRaw then take 1
    let changeable ← accept (.keyword "mut")
    if isRaw && !changeable then keyword "const"
    let _ ← r.operand records
    return .other
  if ← seesAny [.mark "*", .mark "!", .mark "-"] then
    take 1
    let _ ← r.operand records
    return .other
  let form ← r.trailers (← r.atom records)
  if form.isRange && !attributes.isEmpty then misplaced .attributeOnRange
  return form

/-- An expression where a block ends it: in a statement or an arm. -/
def oneClause : Reader Form := do
  let _ ← r.attributes
  if let some () ← r.blockForm? then
    if ((← sees (.mark ".")) && !(← sees (.mark ".."))) || (← sees (.mark "?")) then
      r.operators (← r.trailers .block) true .lowest
    else return .block
  else r.operators (← r.operand true) true .lowest

end TreeCodec.Derive.Rules
