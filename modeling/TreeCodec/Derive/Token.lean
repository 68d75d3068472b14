/-!
Source text as tokens.

What stands between two delimiters is one token with contents of its own, so a list of tokens is
always balanced.
-/
namespace TreeCodec.Derive

inductive Delimiter where
  | parenthesis | bracket | brace
  deriving DecidableEq, Repr

namespace Delimiter

def opening : Delimiter → Char
  | parenthesis => '('
  | bracket => '['
  | brace => '\x7b'

def closing : Delimiter → Char
  | parenthesis => ')'
  | bracket => ']'
  | brace => '\x7d'

def ofOpening? : Char → Option Delimiter
  | '(' => some parenthesis
  | '[' => some bracket
  | '\x7b' => some brace
  | _ => none

def ofClosing? : Char → Option Delimiter
  | ')' => some parenthesis
  | ']' => some bracket
  | '\x7d' => some brace
  | _ => none

theorem ofOpening?_opening (d : Delimiter) : ofOpening? d.opening = some d := by
  cases d <;> rfl

theorem ofClosing?_closing (d : Delimiter) : ofClosing? d.closing = some d := by
  cases d <;> rfl

end Delimiter

inductive LiteralKind where
  -- A string, and the text it stands for.
  | text (value : String)
  | integer (value : Nat)
  -- A number with a point or an exponent.
  | decimal
  -- A character, or a string of bytes.
  | other
  deriving DecidableEq, Repr, Inhabited

/-- A literal: how it is written, what it stands for, and the word attached to its end. -/
structure Literal where
  spelling : String
  kind : LiteralKind
  suffix : String
  deriving DecidableEq, Repr, Inhabited

inductive Token where
  -- An identifier or a keyword. A raw identifier has `r#` in front.
  | word (name : String)
  -- One punctuation character, and whether another one follows without a space.
  | mark (c : Char) (joined : Bool)
  | literal (l : Literal)
  | group (delimiter : Delimiter) (contents : List Token)
  deriving Inhabited

namespace Token

/-- A mark that stands by itself. -/
def lone (c : Char) : Token := .mark c false

mutual

/-- The parts of a token, with the delimiters of groups as parts of their own. -/
def parts : Token → List String
  | word name => [name]
  | mark c _ => [String.singleton c]
  | literal l => [l.spelling]
  | group d contents =>
    String.singleton d.opening :: partsOf contents ++ [String.singleton d.closing]

def partsOf : List Token → List String
  | [] => []
  | t :: ts => t.parts ++ partsOf ts

end

/-- Tokens on one line, with one space between every two parts. -/
def line (ts : List Token) : String := " ".intercalate (partsOf ts)

/-- How many tokens there are, at all depths, each delimiter counted. -/
def count (ts : List Token) : Nat := (partsOf ts).length

theorem partsOf_append (ts us : List Token) : partsOf (ts ++ us) = partsOf ts ++ partsOf us := by
  induction ts with
  | nil => simp [partsOf]
  | cons t ts ih => simp [partsOf, ih]

/-- The name of a word without the mark of a raw identifier. -/
def plainName (name : String) : String :=
  match name.toList with
  | 'r' :: '#' :: rest => String.ofList rest
  | _ => name

end Token

end TreeCodec.Derive
