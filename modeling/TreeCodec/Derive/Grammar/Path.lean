import TreeCodec.Derive.Grammar.Basic

/-!
Paths such as `a::b<u8>::C`, and the arguments of their names.

In a list of arguments lifetimes are written down before the others.
-/
namespace TreeCodec.Derive

/-- What stands between `<` and `>` after a name. -/
inductive ArgumentForm where
  | absent | empty | present
  deriving DecidableEq, Repr

structure PathForm where
  -- Whether the path starts with `::`.
  rooted : Bool
  segments : List (String × ArgumentForm)

namespace PathForm

def names (p : PathForm) : List String := p.segments.map (·.1)

/-- Whether no name has arguments. -/
def plain (p : PathForm) : Bool := p.segments.all (·.2 = .absent)

/-- The arguments of the last name. -/
def arguments (p : PathForm) : ArgumentForm := (p.segments.getLast?.map (·.2)).getD .absent

end PathForm

/-- Parts with those that are lifetimes in front. A comma follows the last of them. -/
def lifetimesFirst (parts : List (Bool × List Token × Bool)) : List Token :=
  let (lifetimes, others) := parts.partition (·.1)
  let closed := (lifetimes.getLast?.map (·.2.2)).getD true
  let comma := if closed || others.isEmpty then [] else [Token.lone ',']
  lifetimes.flatMap (·.2.1) ++ comma ++ others.flatMap (·.2.1)

namespace Rules

variable (r : Rules)

open Reader

/-- A constant as an argument: a literal, a name or a block. -/
def constant : Reader Unit := do
  if ← sees .literal then expect .literal
  else if ← sees .identifier then
    let _ ← identifier
  else if ← sees (.group .brace) then
    r.block
  else refuse []

/-- The bounds after a name in a list of arguments. -/
def argumentBounds : Reader Unit := do
  let _ ← joined "+" (seesAny [.mark ",", .mark ">"]) (r.bound false true)

/-- One argument. Tells whether it is a lifetime. -/
def argument : Reader Bool := do
  if (← sees .lifetime) && !(← seesSecond (.mark "+")) then
    expect .lifetime
    return true
  if ← seesAny [.literal, .group .brace] then
    r.constant
    return false
  if (← r.type true) = .name then
    if ← accept (.mark "=") then
      if ← seesAny [.literal, .group .brace] then r.constant
      else
        let _ ← r.type true
    else if ← accept (.mark ":") then r.argumentBounds
  return false

/-- Arguments between `<` and `>`. -/
def arguments : Reader ArgumentForm := do
  mark "<"
  let parts ← separated "," (sees (.mark ">")) r.argument
  write (lifetimesFirst parts)
  mark ">"
  return if parts.isEmpty then .empty else .present

/-- Arguments as for a function, with its result. -/
def functionArguments : Reader Unit := do
  let _ ← inside .parenthesis (listed (r.type true))
  if ← accept (.mark "->") then
    let _ ← r.type false

/-- The words that name a place and never have arguments. -/
def places : List Terminal :=
  [.keyword "super", .keyword "self", .keyword "crate", .keyword "try"]

/-- One name of a path with its arguments. In an expression these start with `::`. -/
def segment (inExpression : Bool) : Reader (String × ArgumentForm) := do
  if ← seesAny places then return (← anyWord, .absent)
  let name ← if ← sees (.keyword "Self") then anyWord else identifier
  let directly := !inExpression && (← sees (.mark "<")) && !(← seesAny [.mark "<=", .mark "<<="])
  if directly || ((← sees (.mark "::")) && (← seesThird (.mark "<"))) then
    let _ ← accept (.mark "::")
    return (name, ← r.arguments)
  return (name, .absent)

def path (inExpression : Bool) : Reader PathForm := do
  let rooted ← accept (.mark "::")
  let first ← r.segment inExpression
  let more ← repeated do
    if (← sees (.mark "::")) && !(← seesThird (.group .parenthesis)) then
      mark "::"
      return some (← r.segment inExpression)
    return none
  return ⟨rooted, first :: more⟩

/-- A path that may start in a type: `<T as Trait>::Name`. Such a path has no form of its own. -/
def qualifiedPath (inExpression : Bool) : Reader (Option PathForm) := do
  if ← accept (.mark "<") then
    let _ ← r.type true
    if ← accept (.keyword "as") then
      let _ ← r.path false
    mark ">"
    mark "::"
    let _ ← r.segment inExpression
    let _ ← repeated do
      if ← accept (.mark "::") then return some (← r.segment inExpression)
      return none
    return none
  return some (← r.path inExpression)

/-- A path of names without arguments. -/
def plainPath : Reader PathForm := do
  let starts : Reader Bool := seesAny [.identifier, .keyword "super", .keyword "self",
    .keyword "Self", .keyword "crate"]
  let rooted ← accept (.mark "::")
  let first ← if ← starts then anyWord else identifier
  let more ← repeated do
    if ← accept (.mark "::") then
      if ← starts then return some (← anyWord) else fail [.segment]
    return none
  return ⟨rooted, (first :: more).map (·, .absent)⟩

end Rules

end TreeCodec.Derive
