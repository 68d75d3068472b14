import TreeCodec.Derive.Code
import TreeCodec.Format.Report
import TreeCodec.Manifest

/-!
Items and manifests read from trees, and declarations as trees.
-/
namespace TreeCodec

namespace Derive

namespace Source

-- Every part stands on a line of its own, so that a comment at its end reaches no other part.

/-- Texts one below the other. -/
def lines (ts : List String) : String := "\n".intercalate ts

/-- Texts with a comma between every two. -/
def listed (ts : List String) : String := "\n,".intercalate ts

def enclosed (d : Delimiter) (text : String) : String :=
  lines [String.singleton d.opening, text, String.singleton d.closing]

/-- An attribute: its path with the text after it, or with a list of names that may have a text
each. -/
def ofAttribute (t : Tree) : String :=
  let body :=
    match t.get? "raw" with
    | some raw => raw.string
    | none => "(" ++ ", ".intercalate ((t.get "args").items.map fun a =>
        match a.nth 1 with
        | .text s => (a.nth 0).string ++ " = " ++ TreeCodec.Text.quoted s
        | _ => (a.nth 0).string) ++ ")"
  "#[" ++ (t.get "path").string ++ body ++ "]"

def ofAttributes (t : Tree) : String := lines ((t.get "attrs").items.map ofAttribute)

def ofField (t : Tree) : String :=
  lines [ofAttributes t, (t.get "name").string, ":", (t.get "type").string]

/-- What stands between braces: named fields. -/
def ofFields (t : Tree) : String :=
  enclosed .brace (listed ((t.get "fields").items.map ofField))

/-- What stands between parentheses: types. -/
def ofTypes (t : Tree) : String := enclosed .parenthesis (listed (t.get "types").strings)

def ofVariant (t : Tree) : String :=
  lines [ofAttributes t, (t.get "name").string,
    if (t.get? "types").isSome then ofTypes t
    else if (t.get? "fields").isSome then ofFields t
    else ""]

/-- The parameters of an item, if there are any. -/
def ofParameters (t : Tree) : String :=
  match (t.get "params").strings with
  | [] => ""
  | ps => lines ["<", listed ps, ">"]

def ofPredicates (t : Tree) : String :=
  match (t.get "where").strings with
  | [] => ""
  | ps => lines ["where", listed ps]

def ofItem (t : Tree) : String :=
  let (word, body) :=
    match (t.get "kind").string with
    | "struct" => ("struct", lines [ofPredicates t, ofFields t])
    | "tuple" => ("struct", lines [ofTypes t, ofPredicates t, ";"])
    | "unit" => ("struct", lines [ofPredicates t, ";"])
    | "enum" => ("enum", lines [ofPredicates t,
        enclosed .brace (listed ((t.get "variants").items.map ofVariant))])
    | _ => ("union", lines [ofPredicates t, ofFields t])
  lines [ofAttributes t, word, (t.get "name").string, ofParameters t, body]

end Source

def Item.ofTree (t : Tree) : Except DeriveError Item := Item.ofText (Source.ofItem t)

def Member.report (m : Member) : Tree :=
  .object [("name", .text (Token.plainName m.name)), ("key", .text m.key),
    ("type", .text (Token.line m.type)), ("param", .ofOption (m.parameter.map .ofNat)),
    ("default", match m.settings.default with
      | none => .null
      | some .standard => .text ""
      | some (.call path) => .text (Token.line path.tokens))]

def Alternative.report (a : Alternative) : Tree :=
  .ofStrings [Token.plainName a.name, Token.line a.type]

def Shape.report : Shape → List (String × Tree)
  | .record members => [("shape", .text "record"), ("members", .array (members.map Member.report))]
  | .union alternatives =>
    [("shape", .text "union"), ("members", .array (alternatives.map Alternative.report))]

def Declaration.report (home : List String) (d : Declaration) : Tree :=
  .object ([("ident", .text d.ident), ("generic", .bool d.isGeneric),
    ("params", .ofStrings (d.parameters.map (·.name))), ("positional", .bool d.settings.positional),
    ("type_path", .ofOption (d.settings.typePath.map fun p => .text (Token.line p.tokens))),
    ("module", .text (Token.line d.modulePath))] ++ d.shape.report ++
    [("predicates", .ofStrings ((d.wherePredicates home).map Token.line)),
    ("code", .text (Token.line (d.code home)))])

end Derive

def DeriveError.report (e : DeriveError) : Tree := errorReport "Derive" e.message

/-- The part of a manifest that lists crates in one table, added to an outline. In the form `header`
the crates are keys under a heading, in the form `sub` each has a heading of its own, in the form
`dotted` each is assigned by its full path, and in the form `inline` the table is one value. -/
def addListing? (o : Outline) (listing : Tree) : Option Outline := do
  let table := (listing.nth 0).string
  let crates := (listing.nth 2).strings
  match (listing.nth 1).string with
  | "header" =>
    let path ← KeyPath.ofText? table
    let o ← o.heading? path
    crates.foldlM (fun o crate => do o.assign? path (← KeyPath.ofText? crate)) o
  | "sub" =>
    crates.foldlM (fun o crate => do o.heading? (← KeyPath.ofText? (table ++ "." ++ crate))) o
  | "dotted" =>
    crates.foldlM (fun o crate => do o.assign? [] (← KeyPath.ofText? (table ++ "." ++ crate))) o
  | _ => o.assign? [] (← KeyPath.ofText? table)

/-- A manifest from its listings. What is assigned by its full path stands before the first heading,
which is that of the package. A broken manifest has no keys. -/
def Manifest.ofTree (t : Tree) : Manifest :=
  let (assigned, headed) := t.items.partition fun listing =>
    ["dotted", "inline"].contains (listing.nth 1).string
  let outline : Option Outline := do
    let o ← assigned.foldlM addListing? []
    headed.foldlM addListing? (← o.heading? ["package"])
  ⟨(outline.getD []).map (·.1)⟩

end TreeCodec
