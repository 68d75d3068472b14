import TreeCodec.Derive.Token
import TreeCodec.Text.Hex
import TreeCodec.Text.Quoted
import TreeCodec.Text.WordCharacter

/-!
Literals in source text: strings, characters and numbers.

`Literal.scan?` gives the literal that a text starts with and what follows it. `Literal.ofText`
writes a text as a literal. A literal may have a word attached to its end, its suffix.
-/
namespace TreeCodec.Derive

/-- What the characters of a string stand for. -/
inductive StringKind where
  | text
  -- Bytes. All characters are ASCII.
  | bytes
  -- Bytes that end in a zero byte, so there is none among them.
  | terminated
  deriving DecidableEq, Repr

namespace StringKind

/-- Whether a string may hold a character as it is. -/
def allows : StringKind → Char → Bool
  | text, _ => true
  | bytes, c => c.toNat < 0x80
  | terminated, c => c ≠ '\x00'

/-- Whether a string may hold the code that two hexadecimal digits give. -/
def allowsCode : StringKind → Nat → Bool
  | text, n => n < 0x80
  | bytes, _ => true
  | terminated, n => n ≠ 0

end StringKind

namespace Literal

/-- The word that a text starts with, and what follows it. -/
def word? : List Char → Option (List Char × List Char)
  | [] => none
  | c :: r =>
    if Text.isWordStart c then some (c :: r.takeWhile Text.isWordPart, r.dropWhile Text.isWordPart)
    else none

/-- The word attached to a literal, which ends here, and what follows it. -/
def ending (cs : List Char) : String × List Char :=
  match word? cs with
  | some (w, rest) => (String.ofList w, rest)
  | none => ("", cs)

/-- The part of a text before a rest of it. -/
def before (cs rest : List Char) : String := String.ofList (cs.take (cs.length - rest.length))

/-! ### Escapes -/

/-- The code point in braces: up to six hexadecimal digits, and underscores after the first. -/
def bracedCode? : List Char → Option (Nat × List Char)
  | '\x7b' :: r => do
    let body := r.takeWhile (· ≠ '\x7d')
    let digits := body.filter (· ≠ '_')
    let rest ← (r.dropWhile (· ≠ '\x7d')).tail?
    let n ← Text.hexNumber? digits
    if digits.isEmpty ∨ 6 < digits.length ∨ body.head? = some '_' ∨ ¬ n.isValidChar then none
    else some (n, rest)
  | _ => none

/-- The character that an escape stands for, and what follows it. -/
def escape? (kind : StringKind) : List Char → Option (Char × List Char)
  | 'n' :: r => some ('\n', r)
  | 'r' :: r => some ('\r', r)
  | 't' :: r => some ('\t', r)
  | '\\' :: r => some ('\\', r)
  | '\'' :: r => some ('\'', r)
  | '\x22' :: r => some ('\x22', r)
  | '0' :: r => if kind = .terminated then none else some ('\x00', r)
  | 'x' :: a :: b :: r => do
    let n ← Text.hexNumber? [a, b]
    if kind.allowsCode n then some (Char.ofNat n, r) else none
  | 'u' :: r => do
    let (n, rest) ← bracedCode? r
    if kind = .bytes ∨ (kind = .terminated ∧ n = 0) then none else some (Char.ofNat n, rest)
  | _ => none

theorem bracedCode?_length {cs rest : List Char} {n : Nat} (h : bracedCode? cs = some (n, rest)) :
    rest.length < cs.length := by
  revert h
  fun_cases bracedCode? cs
  case case1 r body digits =>
    simp only [Option.bind_eq_bind, Option.bind_eq_some_iff]
    rintro ⟨r', hr, m, -, h⟩
    have hd : (r.dropWhile (· ≠ '\x7d')).length ≤ r.length := (List.dropWhile_sublist _).length_le
    have ht : r'.length ≤ (r.dropWhile (· ≠ '\x7d')).length := by
      revert hr
      cases r.dropWhile (· ≠ '\x7d') <;> grind
    split at h
    · cases h
    · cases h
      simp only [List.length_cons]
      omega
  case case2 => simp

theorem escape?_length {kind : StringKind} {cs rest : List Char} {c : Char}
    (h : escape? kind cs = some (c, rest)) : rest.length < cs.length := by
  revert h
  fun_cases escape? kind cs
  case case9 a b r =>
    simp only [Option.bind_eq_bind, Option.bind_eq_some_iff]
    rintro ⟨n, -, h⟩
    split at h <;> simp_all
    omega
  case case10 r =>
    simp only [Option.bind_eq_bind, Option.bind_eq_some_iff]
    rintro ⟨⟨n, r'⟩, hb, h⟩
    have := bracedCode?_length hb
    split at h <;> simp_all
    omega
  all_goals simp +contextual

/-- What follows an escaped line end, from the line end on. It stands for nothing, together with the
blanks after it. -/
def afterLineEnd? : List Char → Option (List Char)
  | [] => none
  | '\r' :: '\n' :: r => afterLineEnd? r
  | '\r' :: _ => none
  | c :: r => if c = ' ' ∨ c = '\t' ∨ c = '\n' then afterLineEnd? r else some (c :: r)

theorem afterLineEnd?_length {cs rest : List Char} (h : afterLineEnd? cs = some rest) :
    rest.length ≤ cs.length := by
  fun_induction afterLineEnd? cs <;> grind

/-! ### Strings and characters -/

/-- The text up to the closing quote, and what follows it. -/
def cooked? (kind : StringKind) (cs : List Char) : Option (List Char × List Char) :=
  match cs with
  | [] => none
  | '\x22' :: r => some ([], r)
  | '\\' :: '\n' :: r =>
    match h : afterLineEnd? r with
    | none => none
    | some rest =>
      have := afterLineEnd?_length h
      cooked? kind rest
  | '\\' :: '\r' :: '\n' :: r =>
    match h : afterLineEnd? r with
    | none => none
    | some rest =>
      have := afterLineEnd?_length h
      cooked? kind rest
  | '\\' :: r =>
    match h : escape? kind r with
    | none => none
    | some (c, rest) =>
      have := escape?_length h
      (cooked? kind rest).map fun (t, rest) => (c :: t, rest)
  | '\r' :: '\n' :: r => (cooked? kind r).map fun (t, rest) => ('\n' :: t, rest)
  | '\r' :: _ => none
  | c :: r =>
    if kind.allows c then (cooked? kind r).map fun (t, rest) => (c :: t, rest) else none
termination_by cs.length
decreasing_by all_goals simp_all; try omega

/-- The text up to a quote with a number of hashes after it, and what follows them. -/
def raw? (kind : StringKind) (hashes : Nat) : List Char → Option (List Char × List Char)
  | [] => none
  | '\r' :: '\n' :: r => (raw? kind hashes r).map fun (t, rest) => ('\r' :: '\n' :: t, rest)
  | '\r' :: _ => none
  | c :: r =>
    if c = '\x22' ∧ r.take hashes = List.replicate hashes '#' then some ([], r.drop hashes)
    else if kind.allows c then (raw? kind hashes r).map fun (t, rest) => (c :: t, rest)
    else none

/-- How many hashes a raw string may have around it. -/
def mostHashes : Nat := 255

/-- The text after the mark of a raw string. -/
def rawString? (kind : StringKind) (cs : List Char) : Option (List Char × List Char) :=
  let hashes := (cs.takeWhile (· = '#')).length
  match cs.drop hashes with
  | '\x22' :: r => if hashes ≤ mostHashes then raw? kind hashes r else none
  | _ => none

/-- A string of a kind from its quote on, or from its hashes if it is raw. -/
def string? (kind : StringKind) (raw : Bool) (cs : List Char) : Option (List Char × List Char) :=
  if raw then rawString? kind cs
  else
    match cs with
    | '\x22' :: r => cooked? kind r
    | _ => none

/-- What follows the character literal that starts after a quote. -/
def afterCharacter? (kind : StringKind) : List Char → Option (List Char)
  | '\\' :: r => do
    match ← escape? kind r with
    | (_, '\'' :: rest) => some rest
    | _ => none
  | c :: '\'' :: rest => if kind.allows c then some rest else none
  | _ => none

/-! ### Numbers -/

def isDigitOrGap (c : Char) : Bool := c.isDigit || c = '_'

/-- What follows an exponent, which has a digit. A sign comes before the first digit. -/
def afterExponent? (signed : Bool) : List Char → Option (List Char)
  | [] => none
  | c :: r =>
    if c = '_' then afterExponent? signed r
    else if c = '+' ∨ c = '-' then if signed then none else afterExponent? true r
    else if c.isDigit then some (r.dropWhile isDigitOrGap)
    else none

def startsExponent : List Char → Bool
  | c :: _ => c = 'e' || c = 'E'
  | [] => false

/-- What follows the digits of a number with a point or an exponent. A point belongs to a number if
neither a word nor another point comes next. -/
def afterDecimal? (cs : List Char) : Option (List Char) :=
  if !(cs.head?.map Char.isDigit).getD false then none
  else
    match cs.dropWhile isDigitOrGap with
    | '.' :: r =>
      if (word? r).isSome ∨ r.head? = some '.' then none
      else
        let rest := r.dropWhile isDigitOrGap
        if startsExponent rest then some ((afterExponent? false rest.tail).getD rest) else some rest
    | rest => if startsExponent rest then afterExponent? false rest.tail else none

/-- The digits of a whole number in a base, without the gaps, and what follows them. A letter that
is no digit of the base ends them. -/
def digits? (base : Nat) : List Char → Option (List Nat × List Char)
  | [] => some ([], [])
  | c :: r =>
    if c = '_' then digits? base r
    else
      match Text.hexDigit? c with
      | none => some ([], c :: r)
      | some d =>
        if d < base then (digits? base r).map fun (ds, rest) => (d :: ds, rest)
        else if c.isDigit then none
        else some ([], c :: r)

/-- The base of a whole number, and the text of its digits. -/
def base : List Char → Nat × List Char
  | '0' :: 'x' :: r => (16, r)
  | '0' :: 'o' :: r => (8, r)
  | '0' :: 'b' :: r => (2, r)
  | cs => (10, cs)

/-- A whole number, and what follows its digits. -/
def integer? (cs : List Char) : Option (Nat × List Char) :=
  let (b, r) := base cs
  if b = 10 ∧ r.head? = some '_' then none
  else
    match digits? b r with
    | none => none
    | some ([], _) => none
    | some (ds, rest) => some (ds.foldl (fun n d => n * b + d) 0, rest)

/-- Ends a number whose digits end here. What follows its suffix must not be part of a word. -/
def number? (cs : List Char) (kind : LiteralKind) (rest : List Char) :
    Option (Literal × List Char) :=
  let (suffix, rest) := ending rest
  if (rest.head?.map Text.isWordPart).getD false then none
  else some (⟨before cs rest, kind, suffix⟩, rest)

/-! ### All literals -/

/-- Ends a literal other than a number. -/
def ended (cs : List Char) (kind : LiteralKind) (rest : List Char) : Literal × List Char :=
  let (suffix, rest) := ending rest
  (⟨before cs rest, kind, suffix⟩, rest)

/-- The literal that a text starts with, and what follows it. -/
def scan? (cs : List Char) : Option (Literal × List Char) :=
  let text (raw : Bool) (r : List Char) :=
    (string? .text raw r).map fun (t, rest) => ended cs (.text (String.ofList t)) rest
  let bytes (kind : StringKind) (raw : Bool) (r : List Char) :=
    (string? kind raw r).map fun (_, rest) => ended cs .other rest
  match cs with
  | '\x22' :: _ => text false cs
  | 'r' :: r => text true r
  | 'b' :: 'r' :: r => bytes .bytes true r
  | 'c' :: 'r' :: r => bytes .terminated true r
  | 'b' :: '\'' :: r => (afterCharacter? .bytes r).map (ended cs .other)
  | 'b' :: r => bytes .bytes false r
  | 'c' :: r => bytes .terminated false r
  | '\'' :: r => (afterCharacter? .text r).map (ended cs .other)
  | _ =>
    ((afterDecimal? cs).bind (number? cs .decimal)).or
      ((integer? cs).bind fun (n, rest) => number? cs (.integer n) rest)

/-- How the characters of a text are written in a string. A zero in front of a digit is written in
full, for it would be read as an octal number otherwise. -/
def spelled : List Char → List Char
  | [] => []
  | '\x00' :: c :: r =>
    (if '0' ≤ c ∧ c ≤ '7' then ['\\', 'x', '0', '0'] else ['\\', '0']) ++ spelled (c :: r)
  | c :: r => Text.escape '\x22' c ++ spelled r

/-- The literal for a text. -/
def ofText (s : String) : Literal :=
  ⟨String.ofList ('\x22' :: spelled s.toList ++ ['\x22']), .text s, ""⟩

end Literal

end TreeCodec.Derive
