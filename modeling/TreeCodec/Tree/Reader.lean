import TreeCodec.Number.Numeral
import TreeCodec.Text.Hex
import TreeCodec.Tree.Basic

/-!
Reading a tree from JSON text.

The text is first cut into tokens. Then the tokens are read one by one, with the arrays and objects
that are still open on a stack; at most 127 may be open at once. A repeated key keeps its first
place and its last value.
-/
namespace TreeCodec.Tree

inductive Token where
  | openArray | closeArray | openObject | closeObject | comma | colon
  | leaf (t : Tree)
  deriving Inhabited

/-- How many arrays and objects may be open at once. -/
def maxDepth : Nat := 127

def isSpace (c : Char) : Bool := c = ' ' || c = '\n' || c = '\t' || c = '\r'

def unit? (a b c d : Char) : Option Nat := do
  return (← Text.hexDigit? a) * 4096 + (← Text.hexDigit? b) * 256 + (← Text.hexDigit? c) * 16 +
    (← Text.hexDigit? d)

def isHigh (n : Nat) : Bool := 0xD800 ≤ n && n < 0xDC00

def isLow (n : Nat) : Bool := 0xDC00 ≤ n && n < 0xE000

def shortEscape? : Char → Option Char
  | '\x22' => some '\x22'
  | '\\' => some '\\'
  | '/' => some '/'
  | 'b' => some '\x08'
  | 'f' => some '\x0c'
  | 'n' => some '\n'
  | 'r' => some '\r'
  | 't' => some '\t'
  | _ => none

-- Puts a character in front of a text that was read with what follows it.
def prepend (c : Char) (read : Option (List Char × List Char)) : Option (List Char × List Char) :=
  read.map fun (s, rest) => (c :: s, rest)

theorem prepend_eq_some {c : Char} {read : Option (List Char × List Char)} {s rest : List Char} :
    prepend c read = some (s, rest) ↔ ∃ s', read = some (s', rest) ∧ s = c :: s' := by
  cases read with
  | none => simp [prepend]
  | some p =>
    obtain ⟨s', rest'⟩ := p
    simp only [prepend, Option.map_some, Option.some.injEq, Prod.mk.injEq]
    constructor
    · rintro ⟨rfl, rfl⟩
      exact ⟨s', ⟨rfl, rfl⟩, rfl⟩
    · rintro ⟨s'', ⟨rfl, rfl⟩, rfl⟩
      exact ⟨rfl, rfl⟩

/-- The text up to the closing quote, and what follows it. A high surrogate needs its low one. -/
def string? : List Char → Option (List Char × List Char)
  | '\x22' :: r => some ([], r)
  | '\\' :: 'u' :: a :: b :: c :: d :: r =>
    match unit? a b c d with
    | none => none
    | some n =>
      if isLow n then none
      else if isHigh n then
        match r with
        | '\\' :: 'u' :: a' :: b' :: c' :: d' :: r' =>
          match unit? a' b' c' d' with
          | none => none
          | some m =>
            if isLow m then
              prepend (Char.ofNat (0x10000 + (n - 0xD800) * 0x400 + (m - 0xDC00))) (string? r')
            else none
        | _ => none
      else prepend (Char.ofNat n) (string? r)
  | '\\' :: e :: r =>
    match shortEscape? e with
    | none => none
    | some c => prepend c (string? r)
  | c :: r => if c.toNat < 0x20 ∨ c = '\\' then none else prepend c (string? r)
  | [] => none

theorem string?_length {cs s rest : List Char} (h : string? cs = some (s, rest)) :
    rest.length < cs.length := by
  fun_induction string? cs generalizing s rest <;>
    simp_all only [prepend_eq_some, Option.some.injEq, Prod.mk.injEq, reduceCtorEq,
      List.length_cons]
  case case1 => omega
  all_goals
    obtain ⟨s', h, -⟩ := h
    grind

/-- Whether a character can be part of a number. -/
def isNumeric (c : Char) : Bool :=
  c.isDigit || c = '-' || c = '+' || c = '.' || c = 'e' || c = 'E'

/-- A number. Without a fraction and an exponent it is an integer if it fits 64 bits and is not a
negative zero. A number past the largest double is refused. -/
def number? (cs : List Char) : Option Number :=
  let negative := cs.head? = some '-'
  let body := if negative then cs.drop 1 else cs
  let whole := body.takeWhile Char.isDigit
  let rest := body.dropWhile Char.isDigit
  if whole.isEmpty ∨ (whole.length ≠ 1 ∧ whole.head? = some '0') then none
  else
    let n := spelled whole
    let fits := if negative then 0 < n ∧ n ≤ Nat.pow 2 63 else n < Nat.pow 2 64
    if rest.isEmpty ∧ fits then some (.int (if negative then -n else n))
    else
      let fractionOk := match rest with
        | '.' :: c :: _ => c.isDigit
        | '.' :: [] => false
        | _ => true
      if fractionOk then do
        let (digits, exponent) ← Numeral.decimal? body
        let x := Double.ofDecimal negative digits exponent
        if x.isFinite then some (.float x) else none
      else none

/-- Cuts a text into tokens. -/
def tokens? : List Char → Option (List Token)
  | [] => some []
  | '[' :: r => (tokens? r).map (.openArray :: ·)
  | ']' :: r => (tokens? r).map (.closeArray :: ·)
  | '\x7b' :: r => (tokens? r).map (.openObject :: ·)
  | '\x7d' :: r => (tokens? r).map (.closeObject :: ·)
  | ',' :: r => (tokens? r).map (.comma :: ·)
  | ':' :: r => (tokens? r).map (.colon :: ·)
  | 'n' :: 'u' :: 'l' :: 'l' :: r => (tokens? r).map (.leaf .null :: ·)
  | 't' :: 'r' :: 'u' :: 'e' :: r => (tokens? r).map (.leaf (.bool true) :: ·)
  | 'f' :: 'a' :: 'l' :: 's' :: 'e' :: r => (tokens? r).map (.leaf (.bool false) :: ·)
  | '\x22' :: r =>
    match h : string? r with
    | none => none
    | some (s, rest) =>
      have := string?_length h
      (tokens? rest).map (.leaf (.text (String.ofList s)) :: ·)
  | c :: r =>
    if isSpace c then tokens? r
    else if c = '-' ∨ c.isDigit then
      match number? (c :: r.takeWhile isNumeric) with
      | none => none
      | some n =>
        have := (List.dropWhile_sublist isNumeric (l := r)).length_le
        (tokens? (r.dropWhile isNumeric)).map (.leaf (.number n) :: ·)
    else none
termination_by cs => cs.length
decreasing_by all_goals simp_all; try omega

/-- An array or object that is still open, with what it holds so far. -/
inductive Frame where
  | array (items : List Tree)
  | object (entries : List (String × Tree))
  | member (entries : List (String × Tree)) (key : String)

/-- What may come next. -/
inductive Expecting where
  | value          -- a value
  | valueOrClose   -- a value, or the end of the array just opened
  | keyOrClose     -- a key, or the end of the object just opened
  | key            -- a key, after a comma
  | colon
  | commaOrClose
  | nothing
  deriving DecidableEq

/-- A value is complete: it goes to the innermost open frame. -/
def settle (t : Tree) : List Frame → Option (Option Tree × List Frame × Expecting)
  | [] => some (some t, [], .nothing)
  | .array items :: fs => some (none, .array (items ++ [t]) :: fs, .commaOrClose)
  | .member entries k :: fs => some (none, .object (Keyed.put k t entries) :: fs, .commaOrClose)
  | .object _ :: _ => none

def build? (done : Option Tree) (stack : List Frame) (state : Expecting) :
    List Token → Option Tree
  | [] => if state = .nothing then done else none
  | token :: rest => do
    let (done', stack', state') ←
      match token, stack, state with
      | .leaf t, _, .value => settle t stack
      | .leaf t, _, .valueOrClose => settle t stack
      | .leaf (.text k), .object entries :: fs, .keyOrClose =>
        some (done, .member entries k :: fs, .colon)
      | .leaf (.text k), .object entries :: fs, .key => some (done, .member entries k :: fs, .colon)
      | .colon, _, .colon => some (done, stack, .value)
      | .comma, .array _ :: _, .commaOrClose => some (done, stack, .value)
      | .comma, .object _ :: _, .commaOrClose => some (done, stack, .key)
      | .closeArray, .array items :: fs, .commaOrClose => settle (.array items) fs
      | .closeArray, .array items :: fs, .valueOrClose => settle (.array items) fs
      | .closeObject, .object entries :: fs, .commaOrClose => settle (.object entries) fs
      | .closeObject, .object entries :: fs, .keyOrClose => settle (.object entries) fs
      | .openArray, _, state =>
        if (state = .value ∨ state = .valueOrClose) ∧ stack.length < maxDepth then
          some (done, .array [] :: stack, .valueOrClose)
        else none
      | .openObject, _, state =>
        if (state = .value ∨ state = .valueOrClose) ∧ stack.length < maxDepth then
          some (done, .object [] :: stack, .keyOrClose)
        else none
      | _, _, _ => none
    build? done' stack' state' rest

/-- Reads a text that is one tree and nothing more. -/
def read? (text : String) : Option Tree := do
  let tokens ← tokens? text.toList
  build? none [] .value tokens

end TreeCodec.Tree
