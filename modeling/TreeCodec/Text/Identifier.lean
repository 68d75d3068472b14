/-!
Identifier fragments.

A fragment is written in one pass over a name: ASCII letters and digits stand as they are, and any
other characters between two of them become one underscore.
-/
namespace TreeCodec.Text

/-- What a name without letters and digits is called. -/
def anonymous : String := "anon"

-- The fragment is kept reversed, so its last character is at hand.
def extendFragment (out : List Char) (c : Char) : List Char :=
  if c.isAlphanum then c :: out
  else
    match out with
    | [] => []
    | '_' :: _ => out
    | _ => '_' :: out

def fragment (cs : List Char) : List Char :=
  ((cs.foldl extendFragment []).dropWhile (· = '_')).reverse

/-- Turns a name into an identifier fragment: `Option<Box<Node>>` becomes `Option_Box_Node`. -/
def identifier (name : String) : String :=
  let out := fragment name.toList
  if out.isEmpty then anonymous else String.ofList out

end TreeCodec.Text
