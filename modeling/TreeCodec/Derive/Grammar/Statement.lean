import TreeCodec.Derive.Grammar.Expression

/-!
Statements of a block.

A statement is an item, a call whose arguments are tokens in braces, a `let`, or an expression. An
expression that is no block needs a `;` after it unless it is the last one.
-/
namespace TreeCodec.Derive.Rules

variable (r : Rules)

open Reader

/-! ### Calls whose arguments are tokens -/

/-- What a call whose arguments are tokens can be where a statement starts. -/
inductive InvocationForm where
  -- An item, which has a name of its own.
  | item
  -- A statement of its own.
  | statement
  -- A part of an expression, or no such call.
  | expression
  deriving DecidableEq, Repr

/-- What a call is, from behind its path. -/
def invocationForm : Reader InvocationForm := do
  if !(← sees (.mark "!")) then return .expression
  if (← seesSecond .identifier) || (← seesSecond (.keyword "try")) then return .item
  let goesOn := (← seesThird (.mark "?")) ||
    ((← seesThird (.mark ".")) && !(← seesThird (.mark "..")))
  return if (← seesSecond (.group .brace)) && !goesOn then .statement else .expression

/-- What the call is that comes next, if one does. -/
def nextInvocation : Reader InvocationForm := do
  let form ← ahead do
    let _ ← plainPath
    invocationForm
  return form.getD .expression

/-- A call that is a statement of its own. -/
def invocationStatement : Reader Unit := do
  let _ ← plainPath
  mark "!"
  let _ ← anyGroup
  let _ ← accept (.mark ";")

/-! ### Items among statements -/

/-- The words that only an item starts with. -/
def itemWords : List Terminal := [
  .keyword "pub", .keyword "extern", .keyword "use", .keyword "fn", .keyword "mod",
  .keyword "type", .keyword "struct", .keyword "enum", .keyword "trait", .keyword "impl",
  .keyword "macro"]

/-- Whether `const` starts an item rather than a block or a closure. -/
def constantIsItem : Reader Bool := do
  if (← seesSecond (.keyword "async")) then
    return (← seesThird (.keyword "unsafe")) || (← seesThird (.keyword "extern")) ||
      (← seesThird (.keyword "fn"))
  let others : List Terminal :=
    [.group .brace, .keyword "static", .keyword "move", .mark "|"]
  return !(← others.anyM seesSecond)

/-- Whether an item comes next rather than an expression. -/
def seesItem : Reader Bool := do
  if ← seesAny itemWords then return true
  if ← sees (.keyword "crate") then return !(← seesSecond (.mark "::"))
  if ← sees (.keyword "static") then
    return (← seesSecond (.keyword "mut")) || (← seesSecond .identifier)
  if ← sees (.keyword "const") then return ← constantIsItem
  if ← sees (.keyword "unsafe") then return !(← seesSecond (.group .brace))
  if ← sees (.keyword "async") then
    return (← seesSecond (.keyword "unsafe")) || (← seesSecond (.keyword "extern")) ||
      (← seesSecond (.keyword "fn"))
  if ← sees (.keyword "union") then return ← seesSecond .identifier
  if ← sees (.keyword "auto") then return ← seesSecond (.keyword "trait")
  if ← sees (.keyword "default") then
    return (← seesSecond (.keyword "unsafe")) || (← seesSecond (.keyword "impl"))
  return false

/-! ### Statements -/

/-- A `let`. An `else` after its value belongs to it unless the value ends in a brace. -/
def localBinding : Reader Unit := do
  keyword "let"
  let _ ← r.pattern
  if ← accept (.mark ":") then
    let _ ← r.type true
  if ← accept (.mark "=") then
    let (_, value) ← capture r.wholeExpression
    write value
    let braced := value.getLast? matches some (.group .brace _)
    if !braced && (← accept (.keyword "else")) then r.plainBlock
  mark ";"

/-- One statement. Tells whether it still needs a `;` if another one follows. -/
def statement : Reader Bool := do
  let isItem ← ahead do
    let _ ← r.attributes
    match ← nextInvocation with
    | .item => return true
    | .statement => return false
    | .expression => seesItem
  if isItem = some true then
    r.item
    return false
  let _ ← r.attributes
  if (← nextInvocation) = .statement then
    invocationStatement
    return false
  if ← sees (.keyword "let") then
    r.localBinding
    return false
  let form ← r.clause
  if ← accept (.mark ";") then return false else return form.needsMark

/-- All statements of a block. -/
def allStatements : Reader Unit := do
  let _ ← repeated do
    let _ ← repeated do
      if ← accept (.mark ";") then return some ()
      return none
    if ← atEnd then return none
    let unended ← r.statement
    if ← atEnd then return none
    if unended then misplaced .unendedStatement
    return some ()

end TreeCodec.Derive.Rules
