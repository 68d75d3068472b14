import TreeCodec.Derive.Grammar.Statement

/-!
Functions.

An argument may be a type alone if the type is a name with arguments; it is written down with `_` as
its pattern.
-/
namespace TreeCodec.Derive.Rules

variable (r : Rules)

open Reader

/-- The words in front of `fn`. Tells whether `safe`, which not all places allow, is there. -/
def qualifiers (safe : Bool) : Reader Bool := do
  let _ ← accept (.keyword "const")
  let _ ← accept (.keyword "async")
  let risky ← accept (.keyword "unsafe")
  let isSafe ← if safe && !risky then accept (.keyword "safe") else pure false
  convention
  return isSafe

/-- Whether a function comes next. -/
def seesFunction (safe : Bool) : Reader Bool := do
  let found ← ahead do
    let _ ← qualifiers safe
    sees (.keyword "fn")
  return found.getD false

inductive InputForm where
  | receiver
  -- `...`
  | dots
  | other
  deriving DecidableEq, Repr

/-- The value that a method is called on. Its type can be left out. -/
def receiver : Reader Unit := do
  let borrowed ← accept (.mark "&")
  if borrowed then
    let _ ← accept .lifetime
  let _ ← accept (.keyword "mut")
  keyword "self"
  if !borrowed && (← accept (.mark ":")) then
    let _ ← r.type true

/-- What a function takes. -/
def input : Reader InputForm := do
  let _ ← r.attributes
  if ← accept (.mark "...") then return .dots
  if (← attempt r.receiver).isSome then return .receiver
  if (← sees .identifier) && (← seesSecond (.mark "<")) then
    write [.word "_", .lone ':']
    let _ ← r.type true
    return .other
  let _ ← r.pattern
  mark ":"
  if ← accept (.mark "...") then return .dots
  let _ ← r.type true
  return .other

/-- All that a function takes. A receiver can only come first, and dots only last. -/
def inputs : Nat → (first received : Bool) → Reader Unit
  | 0, _, _ => return
  | n + 1, first, received => do
    if ← atEnd then return
    let form ← r.input
    if form = .receiver && received then misplaced .secondReceiver
    if form = .receiver && !first then misplaced .lateReceiver
    if ← atEnd then return
    mark ","
    if form ≠ .dots then inputs n false (received || form = .receiver)

/-- A function without its body. Tells whether it is said to be safe. -/
def signature (safe : Bool) : Reader Bool := do
  let isSafe ← qualifiers safe
  keyword "fn"
  let _ ← identifier
  let _ ← r.parameters
  inside .parenthesis do r.inputs ((← rest).length + 1) true false
  if ← accept (.mark "->") then
    let _ ← r.type true
  let _ ← r.whereClause
  return isSafe

end TreeCodec.Derive.Rules
