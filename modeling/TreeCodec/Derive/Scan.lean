import TreeCodec.Derive.Literal
import TreeCodec.Text.Blank

/-!
Cutting source text into tokens.

The text is first cut into a flat list of pieces; then the pieces between two delimiters become one
token. `Token.scan?` fails on a text with an unfinished literal or comment, an unknown character or
unbalanced delimiters.
-/
namespace TreeCodec.Derive

inductive Piece where
  | opening (d : Delimiter)
  | closing (d : Delimiter)
  | token (t : Token)

namespace Scan

open Literal (word?)

/-! ### Blanks and comments -/

/-- Blanks between tokens: white space and the two marks of writing direction. -/
def isSpace (c : Char) : Bool := Text.isBlank c || c = '\u200e' || c = '\u200f'

/-- What follows a block comment, from behind its opening. Block comments nest. -/
def afterComment? (depth : Nat) : List Char → Option (List Char)
  | '*' :: '/' :: r =>
    match depth with
    | 0 => some r
    | d + 1 => afterComment? d r
  | '/' :: '*' :: r => afterComment? (depth + 1) r
  | _ :: r => afterComment? depth r
  | [] => none

/-- What follows a comment, if the text starts with one that says nothing about the source. -/
def afterPlainComment? : List Char → Option (List Char)
  | '/' :: '/' :: '/' :: '/' :: r => some (r.dropWhile (· ≠ '\n'))
  | '/' :: '/' :: '/' :: _ => none
  | '/' :: '/' :: '!' :: _ => none
  | '/' :: '/' :: r => some (r.dropWhile (· ≠ '\n'))
  | '/' :: '*' :: '*' :: '/' :: r => some r
  | '/' :: '*' :: '*' :: '*' :: r => afterComment? 0 ('*' :: '*' :: r)
  | '/' :: '*' :: '*' :: _ => none
  | '/' :: '*' :: '!' :: _ => none
  | '/' :: '*' :: r => afterComment? 0 r
  | _ => none

/-- The rest of a line, and what follows it from the line end on. -/
def line : List Char → List Char × List Char
  | [] => ([], [])
  | '\n' :: r => ([], '\n' :: r)
  | '\r' :: '\n' :: r => ([], '\n' :: r)
  | c :: r => (c :: (line r).1, (line r).2)

/-- The contents of a block comment from behind its opening, and what follows it. -/
def block? (cs : List Char) : Option (List Char × List Char) :=
  (afterComment? 0 cs).map fun rest => (cs.take (cs.length - rest.length - 2), rest)

/-- Whether each carriage return is part of a line end. -/
def returnsEndLines : List Char → Bool
  | [] => true
  | '\r' :: '\n' :: r => returnsEndLines r
  | '\r' :: _ => false
  | _ :: r => returnsEndLines r

/-- Documentation as the attribute that it stands for. An exclamation mark is put in front if it is
about what it stands in. -/
def documentation (inner : Bool) (text : List Char) : List Token :=
  [.lone '#'] ++ (if inner then [.lone '!'] else []) ++
    [.group .bracket [.word "doc", .lone '=', .literal (.ofText (String.ofList text))]]

/-- A comment that documents, and what follows it. -/
def documentation? (cs : List Char) : Option (List Token × List Char) := do
  let (inner, text, rest) ←
    match cs with
    | '/' :: '/' :: '!' :: r => some (true, line r)
    | '/' :: '*' :: '!' :: r => (block? r).map (true, ·)
    | '/' :: '/' :: '/' :: r => if r.head? = some '/' then none else some (false, line r)
    | '/' :: '*' :: '*' :: r => if r.head? = some '*' then none else (block? r).map (false, ·)
    | _ => none
  if returnsEndLines text then some (documentation inner text, rest) else none

/-! ### Words and marks -/

/-- The words that a raw identifier cannot be. -/
def neverRaw : List String := ["_", "super", "self", "Self", "crate"]

/-- An identifier or a keyword, and what follows it. -/
def identifier? : List Char → Option (String × List Char)
  | 'r' :: '#' :: r => do
    let (w, rest) ← word? r
    let name := String.ofList w
    if neverRaw.contains name then none else some ("r#" ++ name, rest)
  | cs => (word? cs).map fun (w, rest) => (String.ofList w, rest)

/-- How literals begin that are no words even if they are not finished. -/
def literalMarks : List (List Char) :=
  ["r\"", "r#\"", "r##", "b\"", "b'", "br\"", "br#", "c\"", "cr\"", "cr#"].map String.toList

def startsLiteral (cs : List Char) : Bool := literalMarks.any (·.isPrefixOf cs)

def isMark (c : Char) : Bool := "~!@#$%^&*-=+|;:,<.>/?'".toList.contains c

/-- Whether a punctuation character comes next. The start of a comment is none. -/
def startsMark : List Char → Bool
  | '/' :: '/' :: _ => false
  | '/' :: '*' :: _ => false
  | c :: _ => isMark c
  | [] => false

/-- Whether what follows the word of a lifetime may follow it. -/
def mayFollowLifetime (raw : Bool) : List Char → Bool
  | '\'' :: _ => false
  | '#' :: _ => raw
  | _ => true

/-- A punctuation character, and what follows it. The quote of a lifetime has a word after it. -/
def mark? (cs : List Char) : Option (Token × List Char) :=
  match cs with
  | '\'' :: r => do
    let (_, rest) ← identifier? r
    if mayFollowLifetime (['r', '#'].isPrefixOf r) rest then some (.mark '\'' true, r) else none
  | c :: r => if startsMark cs then some (.mark c (startsMark r), r) else none
  | [] => none

/-! ### Pieces -/

/-- What is written for a literal that has no text. -/
def unknownLiteral : String := "(/*ERROR*/)"

/-- A token other than a group, and what follows it. -/
def leaf? (cs : List Char) : Option (Token × List Char) :=
  ((Literal.scan? cs).map fun (l, rest) => (Token.literal l, rest)).or <|
    (mark? cs).or <|
      if startsLiteral cs then none
      else (identifier? cs).map fun (name, rest) => (Token.word name, rest)

/-- The piece that a text starts with, and what follows it. -/
def piece? (cs : List Char) : Option (Piece × List Char) :=
  if unknownLiteral.toList.isPrefixOf cs then
    some (.token (.literal ⟨unknownLiteral, .other, ""⟩), cs.drop unknownLiteral.length)
  else
    match cs with
    | [] => none
    | c :: r =>
      match Delimiter.ofOpening? c, Delimiter.ofClosing? c with
      | some d, _ => some (.opening d, r)
      | none, some d => some (.closing d, r)
      | none, none => (leaf? cs).map fun (t, rest) => (.token t, rest)

/-- The pieces of a text, at most as many as the fuel. Every piece has a character, so a text has no
more pieces than characters. -/
def piecesWithin : Nat → List Char → Option (List Piece)
  | 0, cs => if cs.isEmpty then some [] else none
  | _ + 1, [] => some []
  | fuel + 1, c :: r =>
    if isSpace c then piecesWithin fuel r
    else
      match afterPlainComment? (c :: r) with
      | some rest => piecesWithin fuel rest
      | none =>
        match documentation? (c :: r) with
        | some (ts, rest) => (piecesWithin fuel rest).map (ts.map .token ++ ·)
        | none => do
          let (p, rest) ← piece? (c :: r)
          return p :: (← piecesWithin fuel rest)

/-- The pieces of a text. A byte order mark in front is passed over. -/
def pieces? : List Char → Option (List Piece)
  | '\ufeff' :: cs => piecesWithin cs.length cs
  | cs => piecesWithin cs.length cs

/-- Puts the pieces between two delimiters together. The groups that are still open stand innermost
first, each with what came before it. -/
def nest? (stack : List (Delimiter × List Token)) (done : List Token) :
    List Piece → Option (List Token)
  | [] => if stack.isEmpty then some done else none
  | .token t :: rest => nest? stack (done ++ [t]) rest
  | .opening d :: rest => nest? ((d, done) :: stack) [] rest
  | .closing d :: rest =>
    match stack with
    | [] => none
    | (d', outer) :: stack =>
      if d = d' then nest? stack (outer ++ [.group d done]) rest else none

end Scan

/-- The tokens of a text. -/
def Token.scan? (text : String) : Option (List Token) := do
  Scan.nest? [] [] (← Scan.pieces? text.toList)

/-- The tokens of a text that is known to have some. -/
def Token.scan (text : String) : List Token := (scan? text).getD []

end TreeCodec.Derive
