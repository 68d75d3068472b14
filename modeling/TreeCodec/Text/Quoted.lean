import TreeCodec.Text.Visible

/-!
Quoted texts and characters.

A backslash, the quote in use and the common controls have short escapes; any other character
without an appearance of its own is written by its code point in hexadecimal.
-/
namespace TreeCodec.Text

private def hexDigits (n : Nat) : List Char := Nat.toDigits 16 n

def escape (quote : Char) (c : Char) : List Char :=
  match c with
  | '\\' => ['\\', '\\']
  | '\n' => ['\\', 'n']
  | '\r' => ['\\', 'r']
  | '\t' => ['\\', 't']
  | '\x00' => ['\\', '0']
  | c =>
    if c = quote then ['\\', c]
    else if isVisible c then [c]
    else ['\\', 'u', '\x7b'] ++ hexDigits c.toNat ++ ['\x7d']

/-- A text between double quotes. -/
def quoted (s : String) : String :=
  String.ofList ('"' :: s.toList.flatMap (escape '"') ++ ['"'])

/-- A character between single quotes. -/
def quotedChar (c : Char) : String :=
  String.ofList ('\'' :: escape '\'' c ++ ['\''])

end TreeCodec.Text
