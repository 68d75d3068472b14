/-!
Templates: texts with a placeholder, and the parts of texts at a mark.
-/
namespace TreeCodec.Text

/-- Replaces every occurrence of a pattern, from left to right. The first `skip` characters belong
to an occurrence that is already replaced. -/
def replaceFrom (pattern value : List Char) (skip : Nat) : List Char → List Char
  | [] => []
  | c :: cs =>
    match skip with
    | skip + 1 => replaceFrom pattern value skip cs
    | 0 =>
      if pattern.isPrefixOf (c :: cs) then
        value ++ replaceFrom pattern value (pattern.length - 1) cs
      else c :: replaceFrom pattern value 0 cs

/-- Fills a template in: the value stands wherever the placeholder does. -/
def fill (template placeholder value : String) : String :=
  String.ofList (replaceFrom placeholder.toList value.toList 0 template.toList)

/-- The text before the first occurrence of a mark, or all of it. -/
def before (mark : List Char) : List Char → List Char
  | [] => []
  | c :: cs => if mark.isPrefixOf (c :: cs) then [] else c :: before mark cs

/-- What follows the first underscore, if there is one. -/
def afterUnderscore? : List Char → Option (List Char)
  | [] => none
  | c :: cs => if c = '_' then some cs else afterUnderscore? cs

/-- The text without its first parts, at most `n`, that end in an underscore. -/
def dropParts : Nat → List Char → List Char
  | 0, cs => cs
  | n + 1, cs =>
    match afterUnderscore? cs with
    | some rest => dropParts n rest
    | none => cs

end TreeCodec.Text
