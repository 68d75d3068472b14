import TreeCodec.Tree.Basic

/-!
Parts of trees, for readers of trees with a known layout. A part that is absent or of another kind
is read as an empty one.
-/
namespace TreeCodec.Tree

def entries : Tree → List (String × Tree)
  | object es => es
  | _ => []

def items : Tree → List Tree
  | array ts => ts
  | _ => []

/-- The entry of an object under a key. -/
def get? (t : Tree) (key : String) : Option Tree := Keyed.get? key t.entries

def get (t : Tree) (key : String) : Tree := (t.get? key).getD .null

/-- An element of an array. -/
def nth (t : Tree) (index : Nat) : Tree := (t.items[index]?).getD .null

def string : Tree → String
  | text s => s
  | _ => ""

def integer : Tree → Int
  | number (.int n) => n
  | _ => 0

def natural (t : Tree) : Nat := t.integer.toNat

def isTrue : Tree → Bool
  | bool b => b
  | _ => false

/-- Whether the entry under a key is `true`. -/
def flag (t : Tree) (key : String) : Bool := (t.get key).isTrue

def strings (t : Tree) : List String := t.items.map string

def ofNat (n : Nat) : Tree := .number (.int n)

def ofInt (n : Int) : Tree := .number (.int n)

def ofStrings (ss : List String) : Tree := .array (ss.map .text)

/-- The tree, or null. -/
def ofOption : Option Tree → Tree
  | some t => t
  | none => .null

end TreeCodec.Tree
