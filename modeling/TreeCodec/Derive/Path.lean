import TreeCodec.Derive.Grammar

/-!
Paths such as `a::b<u8>::C`, as they are written in settings.

Only the names of a path matter to a description. Its tokens are kept for the generated code.
-/
namespace TreeCodec.Derive

structure Path where
  -- Whether the path starts with `::`.
  rooted : Bool
  names : List String
  tokens : List Token

namespace Path

def ofTokens (ts : List Token) : Except DeriveError Path := do
  let (p, written) ← Reader.readAll ((Rules.forTokens ts).path false) ts
  return ⟨p.rooted, p.names, written⟩

/-- Reads a text that is one path and nothing more. -/
def ofText (text : String) : Except DeriveError Path := do
  let some ts := Token.scan? text | throw .unreadable
  ofTokens ts

/-- Names joined by `::`. -/
def joined (names : List String) : String := "::".intercalate names

/-- The names that lead to the last one. -/
def module (p : Path) : List String := p.names.dropLast

end Path

end TreeCodec.Derive
