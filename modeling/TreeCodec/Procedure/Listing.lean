import TreeCodec.Procedure.Syntax
import TreeCodec.Text.Quoted

/-!
Listings: procedures as pseudo-source.
-/
namespace TreeCodec

open Text (quoted)

private def commaSeparated (parts : List String) : String := ", ".intercalate parts

def Signature.text (s : Signature) : String :=
  let params := s.params.dropLast ++
    (s.params.getLast?.map fun p => if s.missing then p ++ "=MISSING" else p).toList
  "(" ++ commaSeparated params ++ ")"

def Binding.text (S : Schema) : Binding → String
  | type t => S.name t
  | loadHook _ => "<load hook>"
  | dumpHook _ => "<dump hook>"
  | default _ => "<default>"

def Operand.text : Operand → String
  | var name => name
  | key base name => base ++ "[" ++ quoted name ++ "]"
  | item base index | element base _ index => base ++ "[" ++ toString index ++ "]"
  | attr base _ _ name => base ++ "." ++ name

namespace Expr

private def lambda (binder body : String) : String := "lambda " ++ binder ++ ": " ++ body

mutual

def text : Expr → String
  | leaf helper arg => helper ++ "(" ++ arg.text ++ ")"
  | call procedure arg => procedure ++ "(" ++ arg.text ++ ")"
  | optional helper arg binder e | boxed helper arg binder e | list helper arg binder e =>
    helper ++ "(" ++ arg.text ++ ", " ++ lambda binder (text e) ++ ")"
  | map helper arg keyBinder key valueBinder value =>
    helper ++ "(" ++ arg.text ++ ", " ++ lambda keyBinder (text key) ++ ", " ++
      lambda valueBinder (text value) ++ ")"
  | union helper arg binder variants =>
    helper ++ "(" ++ arg.text ++ ", " ++
      lambda binder ("[" ++ commaSeparated (textList variants) ++ "]") ++ ")"

def textList : List Expr → List String
  | [] => []
  | e :: es => text e :: textList es

end

end Expr

def Stmt.text : Stmt → String
  | beginMapping arg => "expect_mapping(" ++ arg.text ++ ")"
  | beginSequence arg min len =>
    let bounds := if min = len then [toString len] else [toString min, toString len]
    "expect_sequence(" ++ commaSeparated (arg.text :: bounds) ++ ")"
  | rejectUnknownKeys arg keys =>
    "reject_unknown_keys(" ++ arg.text ++ ", [" ++ commaSeparated (keys.map quoted) ++ "])"
  | assign slot _ value none => "f" ++ toString slot ++ " = " ++ value.text
  | assign slot arg value (some default) =>
    "f" ++ toString slot ++ " = " ++ default ++ "() if " ++ arg.text ++ " is MISSING else " ++
      value.text
  | construct cls => "return " ++ cls ++ "(*f)"
  | openMapping => "out = \x7b\x7d"
  | openSequence => "out = []"
  | insert key value false => "out[" ++ quoted key ++ "] = " ++ value.text
  | insert key value true => "insert_non_null(out, " ++ quoted key ++ ", " ++ value.text ++ ")"
  | push value => "out.append(" ++ value.text ++ ")"
  | returnOutput => "return out"
  | returnValue value => "return " ++ value.text

/-- The local names in ascending order. -/
def Locals.names (ls : Locals) : List String :=
  (Keyed.keys ls).mergeSort fun a b => a ≤ b

namespace Procedure

private def line (s : String) : String := "    " ++ s ++ "\n"

def text (p : Procedure) : String :=
  let names := Locals.names p.locals
  let head := "def " ++ p.name ++ p.signature.text ++ ":\n"
  let locals := if names.isEmpty then "" else line ("# locals: " ++ " ".intercalate names)
  let body := if p.body.isEmpty then line "pass" else String.join (p.body.map fun s => line s.text)
  head ++ locals ++ body

end Procedure

/-- Procedures in order, with an empty line between two. -/
def listing (procedures : List Procedure) : String :=
  "\n".intercalate (procedures.map Procedure.text)

end TreeCodec
