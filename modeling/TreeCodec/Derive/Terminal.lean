import TreeCodec.Derive.Token

/-!
Terminals: what a grammar can ask for at a place in a list of tokens.

`Terminal.starts` says whether some tokens start with a terminal, and `Terminal.length` how many
tokens it takes up. The quote of a lifetime and its word count as one token.
-/
namespace TreeCodec.Derive

inductive Terminal where
  -- Punctuation of one or more characters.
  | mark (spelling : String)
  -- A word of its own meaning.
  | keyword (spelling : String)
  | group (d : Delimiter)
  | identifier
  | lifetime
  | literal
  | text
  | integer
  deriving DecidableEq, Repr

/-- The words that are not names. -/
def keywords : List String := [
  "_", "abstract", "as", "async", "await", "become", "box", "break", "const", "continue", "crate",
  "do", "dyn", "else", "enum", "extern", "false", "final", "fn", "for", "if", "impl", "in", "let",
  "loop", "macro", "match", "mod", "move", "mut", "override", "priv", "pub", "ref", "return",
  "Self", "self", "static", "struct", "super", "trait", "true", "try", "type", "typeof", "unsafe",
  "unsized", "use", "virtual", "where", "while", "yield"]

namespace Delimiter

/-- What a group between two delimiters is called. -/
def noun : Delimiter → String
  | parenthesis => "parentheses"
  | bracket => "square brackets"
  | brace => "curly braces"

end Delimiter

namespace Token

/-- Whether tokens start with some punctuation, all its characters joined. -/
def startWithMark : List Char → List Token → Bool
  | [], _ => true
  | [c], .mark d _ :: _ => c = d
  | c :: cs, .mark d true :: ts => c = d && startWithMark cs ts
  | _, _ => false

/-- What follows the first token. -/
def afterOne? : List Token → Option (List Token)
  | [] => none
  | .mark '\'' true :: .word _ :: rest => some rest
  | _ :: rest => some rest

/-- The literal that tokens start with and how many tokens it is. The sign of a number is a token of
its own. -/
def literal? : List Token → Option (LiteralKind × Nat)
  | .literal l :: _ => some (l.kind, 1)
  | .word "true" :: _ => some (.other, 1)
  | .word "false" :: _ => some (.other, 1)
  | .mark '-' _ :: .literal l :: _ =>
    match l.kind with
    | .integer _ => some (l.kind, 2)
    | .decimal => some (l.kind, 2)
    | _ => none
  | _ => none

end Token

namespace Terminal

open Token (literal? startWithMark)

def starts (ts : List Token) : Terminal → Bool
  | mark spelling => startWithMark spelling.toList ts
  | keyword spelling => match ts with
    | .word name :: _ => name = spelling
    | _ => false
  | group d => match ts with
    | .group d' _ :: _ => d = d'
    | _ => false
  | identifier => match ts with
    | .word name :: _ => !keywords.contains name
    | _ => false
  | lifetime => match ts with
    | .mark '\'' true :: .word _ :: _ => true
    | _ => false
  | literal => (literal? ts).isSome
  | text => match literal? ts with
    | some (.text _, _) => true
    | _ => false
  | integer => match literal? ts with
    | some (.integer _, _) => true
    | _ => false

/-- Whether a terminal comes after the next token. -/
def second (t : Terminal) (ts : List Token) : Bool := (Token.afterOne? ts).any (t.starts ·)

/-- Whether a terminal comes after the next two tokens. -/
def third (t : Terminal) (ts : List Token) : Bool :=
  ((Token.afterOne? ts).bind Token.afterOne?).any (t.starts ·)

/-- How many tokens a terminal takes up at the start of some tokens. -/
def length (ts : List Token) : Terminal → Nat
  | mark spelling => spelling.length
  | lifetime => 2
  | literal | text | integer => ((literal? ts).map (·.2)).getD 0
  | _ => 1

/-- How a terminal is called where it is missing. -/
def noun : Terminal → String
  | mark spelling => "`" ++ spelling ++ "`"
  | keyword spelling => "`" ++ spelling ++ "`"
  | group d => d.noun
  | identifier => "identifier"
  | lifetime => "lifetime"
  | literal => "literal"
  | text => "string literal"
  | integer => "integer literal"

end Terminal

end TreeCodec.Derive
