import TreeCodec.Derive.Grammar.Item

/-!
The grammar of source code, as far as items need it.

`Rules.forTokens` are rules that read any form made of some tokens, and `Item.ofText` reads an item
with them.
-/
namespace TreeCodec.Derive

namespace Rules

/-- Rules that read one more level of forms than those they are given. -/
def step (r : Rules) : Rules where
  type := r.oneType
  bound := r.oneBound
  expression := r.oneExpression
  operand := r.oneOperand
  operators := r.allOperators
  clause := r.oneClause
  pattern := r.onePattern
  block := r.ownBlock
  statements := r.allStatements
  item := r.oneItem
  importTree := r.oneImportTree
  fields := r.namedFields

/-- How many levels of rules may stand above one token. -/
def levelsPerToken : Nat := 16

/-- Rules that go as deep as any form made of some tokens. -/
def forTokens (ts : List Token) : Rules := closed step (levelsPerToken * (Token.count ts + 1))

end Rules

/-- Reads a text that is one item and nothing more. -/
def Item.ofText (text : String) : Except DeriveError Item := do
  let some ts := Token.scan? text | throw .unreadable
  let (item, _) ← Reader.readAll (Rules.forTokens ts).dataItem ts
  return item

end TreeCodec.Derive
