import TreeCodec.Derive.Grammar.Function
import TreeCodec.Derive.Grammar.Record

/-!
Items among statements or in a module, and the members of traits, implementations and foreign
modules.

A form that is only kept for what may read it later stands as it is written.
-/
namespace TreeCodec.Derive.Rules

variable (r : Rules)

open Reader

/-! ### Calls whose arguments are tokens -/

/-- What the path of a call can start with. -/
def invocationStarts : List Terminal := [
  .identifier, .keyword "self", .keyword "super", .keyword "crate", .mark "::"]

/-- A call. It needs a `;` unless its arguments stand in braces. -/
def invocationItem (named : Bool) : Reader Unit := do
  let _ ← plainPath
  mark "!"
  if named && (← seesAny [.identifier, .keyword "try"]) then
    let _ ← anyWord
  if (← anyGroup) ≠ .brace then mark ";"

/-! ### Imports -/

def externalCrate : Reader Unit := do
  keyword "extern"
  keyword "crate"
  let _ ← if ← sees (.keyword "self") then anyWord else identifier
  if ← accept (.keyword "as") then
    let _ ← if ← sees (.keyword "_") then anyWord else identifier
  mark ";"

/-- A name with what is imported from it, or with another name for it. -/
def importedName : Reader Unit := do
  let _ ← anyWord
  if ← accept (.mark "::") then r.importTree false
  else if ← accept (.keyword "as") then
    if !(← seesAny [.identifier, .keyword "_"]) then fail [.newName]
    let _ ← anyWord

/-- What is imported. In braces a path may start at the root if this one does not. -/
def oneImportTree (root : Bool) : Reader Unit := do
  let names : List Terminal := [
    .identifier, .keyword "self", .keyword "super", .keyword "crate", .keyword "try"]
  if ← seesAny names then r.importedName
  else if ← accept (.mark "*") then return
  else if ← sees (.group .brace) then
    let _ ← inside .brace (listed do
      let rooted ← if root then accept (.mark "::") else pure false
      r.importTree (root && !rooted))
  else refuse (names ++ [.mark "*", .group .brace])

def importItem : Reader Unit := do
  keyword "use"
  let rooted ← accept (.mark "::")
  r.importTree (!rooted)
  mark ";"

/-! ### Values and types -/

/-- A variable. Without a type or a value it stands as it is written. -/
def staticItem : Reader Bool := do
  keyword "static"
  let _ ← accept (.keyword "mut")
  let _ ← identifier
  let typed := !(← sees (.mark "="))
  if typed then
    mark ":"
    let _ ← r.type true
    if ← accept (.mark ";") then return true
  mark "="
  r.wholeExpression
  mark ";"
  return !typed

/-- A constant, whose type can be left out in some places. Tells whether it stands as it is
written. -/
def constantItem (untyped valueless : Bool) : Reader Bool := do
  keyword "const"
  if !(← seesAny [.identifier, .keyword "_"]) then refuse [.identifier, .keyword "_"]
  let _ ← anyWord
  let generic ← sees (.mark "<")
  let _ ← r.parameters
  let typed := !(untyped && (← sees (.mark "=")))
  if typed then
    mark ":"
    let _ ← r.type true
  let valued ← accept (.mark "=")
  if valued then r.wholeExpression
  let limited ← sees (.keyword "where")
  let _ ← r.whereClause
  mark ";"
  return generic || limited || !typed || !(valued || valueless)

/-- Where the predicates of a type stand. -/
inductive PredicatePlace where
  | beforeDefinition | afterDefinition | either
  deriving DecidableEq, Repr

/-- A type with a name, from its word on. Tells whether it has bounds and whether it has a
definition. -/
def typeItem (place : PredicatePlace) : Reader (Bool × Bool) := do
  keyword "type"
  let _ ← identifier
  let _ ← r.parameters
  let bounded ← sees (.mark ":")
  let stop : Reader Bool := seesAny [.keyword "where", .mark "=", .mark ";"]
  let _ ← optionalBounds (listedBy "+" stop r.freeBound)
  let limited ← sees (.keyword "where")
  if place ≠ .afterDefinition then
    let _ ← r.whereClause
  let defined ← accept (.mark "=")
  if defined then
    let _ ← r.type true
  if place = .afterDefinition || (place = .either && !limited) then
    let _ ← r.whereClause
  mark ";"
  return (bounded, defined)

/-! ### Modules -/

def moduleItem : Reader Unit := do
  let _ ← accept (.keyword "unsafe")
  keyword "mod"
  let _ ← if ← sees (.keyword "try") then anyWord else identifier
  if ← accept (.mark ";") then return
  if !(← sees (.group .brace)) then refuse [.mark ";", .group .brace]
  inside .brace do
    r.innerAttributes
    untilEnd r.item

/-- A function of a foreign module. Usually it has no body. -/
def foreignFunction : Reader Bool := do
  let isSafe ← r.signature true
  if ← sees (.group .brace) then
    r.ownBlock
    return true
  mark ";"
  return isSafe

/-- A variable of a foreign module. -/
def foreignStatic : Reader Bool := do
  let risky ← accept (.keyword "unsafe")
  let isSafe ← if risky then pure false else accept (.keyword "safe")
  keyword "static"
  let _ ← accept (.keyword "mut")
  let _ ← identifier
  mark ":"
  let _ ← r.type true
  let valued ← accept (.mark "=")
  if valued then r.wholeExpression
  mark ";"
  return risky || isSafe || valued

/-- A member of a foreign module, from behind its attributes. Tells whether it stands as it is
written. -/
def foreignMemberBody : Reader Bool := do
  let visible ← visibility
  if ← seesFunction true then return ← r.foreignFunction
  let qualified ← seesAny [.keyword "unsafe", .keyword "safe"]
  if (← sees (.keyword "static")) || (qualified && (← seesSecond (.keyword "static"))) then
    return ← r.foreignStatic
  if ← sees (.keyword "type") then
    let (bounded, defined) ← r.typeItem .either
    return bounded || defined
  let starts := if visible then [] else invocationStarts
  if ← seesAny starts then
    invocationItem false
    return false
  refuse ([.keyword "fn", .keyword "static", .keyword "type"] ++ starts)

def foreignMember : Reader Unit := do
  let _ ← asItStandsIf id do
    let _ ← r.attributes
    r.foreignMemberBody

def foreignModule : Reader Unit := do
  let _ ← accept (.keyword "unsafe")
  if !(← sees (.keyword "extern")) then fail [.terminal (.keyword "extern")]
  convention
  inside .brace do
    r.innerAttributes
    untilEnd r.foreignMember

/-! ### Traits -/

/-- A function of a trait. It need not have a body. -/
def traitFunction : Reader Unit := do
  let _ ← r.signature false
  if ← accept (.mark ";") then return
  if !(← sees (.group .brace)) then refuse [.group .brace, .mark ";"]
  r.ownBlock

/-- A member of a trait, from behind its attributes. Tells whether it stands as it is written. -/
def traitMemberBody : Reader Bool := do
  let visible ← visibility
  let isDefault ← accept (.keyword "default")
  let marked := visible || isDefault
  if ← seesFunction false then
    r.traitFunction
    return marked
  if ← sees (.keyword "const") then
    let functionWords : List Terminal := [
      .keyword "async", .keyword "unsafe", .keyword "extern", .keyword "fn"]
    if ← functionWords.anyM seesSecond then
      r.traitFunction
      return marked
    if !((← seesSecond .identifier) || (← seesSecond (.keyword "_"))) then
      take 1
      refuse ([.identifier, .keyword "_"] ++ functionWords)
    let verbatim ← r.constantItem false true
    return marked || verbatim
  if ← sees (.keyword "type") then
    let _ ← r.typeItem .afterDefinition
    return marked
  let starts := if marked then [] else invocationStarts
  if ← seesAny starts then
    invocationItem false
    return false
  refuse ([.keyword "fn", .keyword "const", .keyword "type"] ++ starts)

def traitMember : Reader Unit := do
  let _ ← asItStandsIf id do
    let _ ← r.attributes
    r.traitMemberBody

/-- A trait, from behind its parameters. -/
def traitBody : Reader Unit := do
  let stop : Reader Bool := seesAny [.keyword "where", .group .brace]
  let _ ← optionalBounds (listedBy "+" stop r.freeBound)
  let _ ← r.whereClause
  inside .brace do
    r.innerAttributes
    untilEnd r.traitMember

/-- Another name for bounds, from its `=` on. -/
def aliasBody : Reader Unit := do
  mark "="
  let _ ← listedBy "+" (seesAny [.keyword "where", .mark ";"]) (r.bound false false)
  let _ ← r.whereClause
  mark ";"

/-- A trait, or another name for bounds, which has no word in front. -/
def traitItem : Reader Unit := do
  let mayBeAlias ← sees (.keyword "trait")
  let _ ← accept (.keyword "unsafe")
  let _ ← accept (.keyword "auto")
  keyword "trait"
  let _ ← identifier
  let _ ← r.parameters
  let starts : List Terminal := [.group .brace, .mark ":", .keyword "where"]
  if !mayBeAlias || (← seesAny starts) then r.traitBody
  else if ← sees (.mark "=") then r.aliasBody
  else refuse (starts ++ [.mark "="])

/-! ### Implementations -/

/-- A member of an implementation, from behind its attributes. Tells whether it stands as it is
written. -/
def implementationMemberBody : Reader Bool := do
  let visible ← visibility
  let starts : List Terminal := if ← sees (.keyword "default") then [] else [.keyword "default"]
  let isDefault ←
    if ← seesSecond (.mark "!") then pure false else accept (.keyword "default")
  if ← seesFunction false then
    let _ ← r.signature false
    if ← accept (.mark ";") then return true
    r.ownBlock
    return false
  if ← sees (.keyword "const") then return ← r.constantItem false false
  if ← sees (.keyword "type") then
    let (bounded, defined) ← r.typeItem .afterDefinition
    return bounded || !defined
  let invocations := if visible || isDefault then [] else invocationStarts
  if ← seesAny invocations then
    invocationItem false
    return false
  refuse ((if isDefault then [] else starts) ++
    [.keyword "fn", .keyword "const", .keyword "type"] ++ invocations)

def implementationMember : Reader Unit := do
  let _ ← asItStandsIf id do
    let _ ← r.attributes
    r.implementationMemberBody

/-- What is implemented: a trait for a type, or functions of a type. Tells whether it is something
else. -/
def implemented : Reader Bool := do
  let (form, _) ← asItStandsIf (·.2) do
    let negative ← if ← seesSecond (.group .brace) then pure false else accept (.mark "!")
    let form ← r.type true
    return (form, negative && !(← sees (.keyword "for")))
  if ← accept (.keyword "for") then
    let _ ← r.type true
    return form ≠ .name && form ≠ .path
  return false

/-- An implementation, from behind its visibility. Tells whether it stands as it is written. -/
def implementationItem : Reader Bool := do
  let _ ← accept (.keyword "default")
  let _ ← accept (.keyword "unsafe")
  keyword "impl"
  if opensParameters (← rest) then
    let _ ← r.parameters
  let isMaybe := (← sees (.mark "?")) && (← seesSecond (.keyword "const"))
  if isMaybe then mark "?"
  let isConstant ← accept (.keyword "const")
  let other ← r.implemented
  let _ ← r.whereClause
  inside .brace do
    r.innerAttributes
    untilEnd r.implementationMember
  return isConstant || other

/-! ### All items -/

/-- Rules for replacing tokens. They stand as they are written. -/
def replacementItem : Reader Unit := do
  keyword "macro"
  let _ ← identifier
  let given ← sees (.group .parenthesis)
  if given then take 1
  if !(← sees (.group .brace)) then
    refuse ((if given then [] else [.group .parenthesis]) ++ [.group .brace])
  take 1

/-- An item that starts with `extern`. It cannot say where it is visible unless it imports a
crate. -/
def externalItem (visible : Bool) : Reader Unit := do
  if ← seesSecond (.keyword "crate") then externalCrate
  else if (← seesSecond (.group .brace)) ||
      ((← seesSecond .text) && (← seesThird (.group .brace))) then
    if visible then throw (.expected [.terminal (.keyword "extern")] false)
    r.foreignModule
  else if ← seesSecond .text then
    take 2
    refuse [.group .brace]
  else
    take 1
    refuse [.keyword "crate", .group .brace, .text]

/-- An item that starts with `unsafe`. -/
def unsafeItem (visible : Bool) : Reader Bool := do
  if (← seesSecond (.keyword "trait")) ||
      ((← seesSecond (.keyword "auto")) && (← seesThird (.keyword "trait"))) then
    r.traitItem
    return false
  if ← seesSecond (.keyword "impl") then
    let verbatim ← r.implementationItem
    return visible || verbatim
  if ← seesSecond (.keyword "extern") then
    if visible then throw (.expected [.terminal (.keyword "extern")] false)
    r.foreignModule
    return false
  if ← seesSecond (.keyword "mod") then
    r.moduleItem
    return false
  take 1
  refuse [.keyword "trait", .keyword "auto", .keyword "impl", .keyword "extern", .keyword "mod"]

/-- The words that an item can start with. -/
def itemStarts : List Terminal := [
  .keyword "fn", .keyword "extern", .keyword "use", .keyword "static", .keyword "const",
  .keyword "unsafe", .keyword "mod", .keyword "type", .keyword "struct", .keyword "enum",
  .keyword "union", .keyword "trait", .keyword "auto", .keyword "impl", .keyword "default",
  .keyword "macro"]

/-- An item from behind its visibility. Tells whether it stands as it is written. -/
def visibleItem (visible : Bool) : Reader Bool := do
  let regular (reader : Reader Unit) : Reader Bool := do
    reader
    return false
  let data (reader : List Attribute → Reader Item) : Reader Bool := do
    let _ ← reader []
    return false
  if ← seesFunction false then
    let _ ← r.signature false
    if ← accept (.mark ";") then return true
    regular r.ownBlock
  else if ← sees (.keyword "extern") then regular (r.externalItem visible)
  else if ← sees (.keyword "use") then regular r.importItem
  else if ← sees (.keyword "static") then r.staticItem
  else if ← sees (.keyword "const") then r.constantItem true false
  else if ← sees (.keyword "unsafe") then r.unsafeItem visible
  else if ← sees (.keyword "mod") then regular r.moduleItem
  else if ← sees (.keyword "type") then
    let (bounded, defined) ← r.typeItem .beforeDefinition
    return bounded || !defined
  else if ← sees (.keyword "struct") then data r.recordItem
  else if ← sees (.keyword "enum") then data r.enumItem
  else if (← sees (.keyword "union")) && (← seesSecond .identifier) then data r.overlayItem
  else if (← sees (.keyword "trait")) ||
      ((← sees (.keyword "auto")) && (← seesSecond (.keyword "trait"))) then
    regular r.traitItem
  else if (← sees (.keyword "impl")) ||
      ((← sees (.keyword "default")) && !(← seesSecond (.mark "!"))) then
    let verbatim ← r.implementationItem
    return visible || verbatim
  else if ← sees (.keyword "macro") then
    replacementItem
    return true
  else
    let invocations := if visible then [] else invocationStarts
    if ← seesAny invocations then regular (invocationItem true)
    else refuse (itemStarts ++ invocations)

def oneItem : Reader Unit := do
  let _ ← asItStandsIf id do
    let _ ← r.attributes
    r.visibleItem (← visibility)

end TreeCodec.Derive.Rules
