import TreeCodec.Derive.Attribute
import TreeCodec.Derive.Grammar.Path

/-!
Attributes and visibility, which stand in front of many forms.
-/
namespace TreeCodec.Derive.Rules

variable (r : Rules)

open Reader

/-- What is assigned to the name of an attribute. -/
def attributeValue : Reader Unit := do
  let loneLiteral : Reader Bool := do
    let literal ← accept .literal
    return literal && (← atEnd)
  if (← ahead loneLiteral) = some true then expect .literal
  else if (← sees (.mark "#")) && (← seesSecond (.group .bracket)) then misplaced .attributeAsValue
  else
    let _ ← r.expression true

/-- The contents of an attribute. -/
def attributeContents : Reader Attribute := do
  let (_, path) ← capture do
    if !(← accept (.keyword "unsafe")) then
      let _ ← plainPath
  write path
  match ← rest with
  | .group _ contents :: _ =>
    let _ ← anyGroup
    return ⟨path, .arguments contents⟩
  | _ =>
    if ← accept (.mark "=") then
      r.attributeValue
      return ⟨path, .assigned⟩
    return ⟨path, .bare⟩

/-- The attributes in front of a form. -/
def attributes : Reader (List Attribute) := repeated do
  if ← accept (.mark "#") then return some (← inside .bracket r.attributeContents)
  return none

/-- The attributes that a block has of its own. -/
def innerAttributes : Reader Unit := do
  let _ ← repeated do
    if (← sees (.mark "#")) && (← seesSecond (.mark "!")) then
      mark "#"
      mark "!"
      return some (← inside .bracket r.attributeContents)
    return none

/-- Braces around attributes of their own and statements. -/
def ownBlock : Reader Unit := inside .brace do
  r.innerAttributes
  r.statements

/-- Braces around statements. -/
def plainBlock : Reader Unit := inside .brace r.statements

/-- Reads a visibility, if there is one. A group after `pub` belongs to it only if it says where the
form is visible. -/
def visibility : Reader Bool := do
  if !(← accept (.keyword "pub")) then return false
  match ← rest with
  | .group .parenthesis [.word place] :: _ =>
    if ["crate", "self", "super"].contains place then take 1
  | .group .parenthesis (.word "in" :: _) :: _ =>
    inside .parenthesis do
      keyword "in"
      let _ ← plainPath
  | _ => pure ()
  return true

end TreeCodec.Derive.Rules
