import TreeCodec.Compile.Wrapper
import TreeCodec.Format.Schema

/-!
Procedures and descriptors that are written as trees: a node is an array of its name and its parts.
-/
namespace TreeCodec

def Direction.ofTree (t : Tree) : Direction := if t.string = "dump" then .dump else .load

def Signature.ofTree : Tree → Signature
  | .text d => .of (.ofTree (.text d))
  | t =>
    { direction := .ofTree (t.get "direction")
      params := (t.get "params").strings
      missing := t.flag "missing" }

def Binding.ofTree (S : Schema) (b : Tree) : Binding :=
  let typed (key : String) : Option (Ty × HookRule) :=
    (b.get? key).map fun h => (.ofTree (h.nth 0), .ofTree (h.nth 1))
  match typed "load_hook", typed "dump_hook", b.get? "default" with
  | some (t, rule), _, _ => .loadHook (rule.load S t)
  | _, some (t, rule), _ => .dumpHook (Hooks.checked S t (rule.dump S t))
  | _, _, some v => .default (S.valueOf v)
  | _, _, _ => .type (.ofTree (b.get "type"))

def Locals.ofTree (S : Schema) (t : Tree) : Locals :=
  t.entries.map fun (name, b) => (name, .ofTree S b)

def Operand.ofTree (t : Tree) : Operand :=
  let base := (t.nth 1).string
  match (t.nth 0).string with
  | "key" => .key base (t.nth 2).string
  | "item" => .item base (t.nth 2).natural
  | "attr" => .attr base (t.nth 2).string (t.nth 3).natural (t.nth 4).string
  | "element" => .element base (t.nth 2).string (t.nth 3).natural
  | _ => .var base

namespace Expr

mutual

def ofTree : Tree → Expr
  | .array [.text "call", name, arg] => .call name.string (.ofTree arg)
  | .array [.text "optional", helper, arg, binder, e] =>
    .optional helper.string (.ofTree arg) binder.string (ofTree e)
  | .array [.text "boxed", helper, arg, binder, e] =>
    .boxed helper.string (.ofTree arg) binder.string (ofTree e)
  | .array [.text "list", helper, arg, binder, e] =>
    .list helper.string (.ofTree arg) binder.string (ofTree e)
  | .array [.text "union", helper, arg, binder, .array es] =>
    .union helper.string (.ofTree arg) binder.string (ofTrees es)
  | .array [.text "map", helper, arg, keyBinder, key, valueBinder, value] =>
    .map helper.string (.ofTree arg) keyBinder.string (ofTree key) valueBinder.string
      (ofTree value)
  | t => .leaf (t.nth 1).string (.ofTree (t.nth 2))

def ofTrees : List Tree → List Expr
  | [] => []
  | t :: ts => ofTree t :: ofTrees ts

end

end Expr

def Stmt.ofTree (t : Tree) : Stmt :=
  let first := t.nth 1
  match (t.nth 0).string with
  | "begin_mapping" => .beginMapping (.ofTree first)
  | "begin_sequence" => .beginSequence (.ofTree first) (t.nth 2).natural (t.nth 3).natural
  | "reject_unknown_keys" => .rejectUnknownKeys (.ofTree first) (t.nth 2).strings
  | "assign" =>
    let default := match t.nth 4 with
      | .text name => some name
      | _ => none
    .assign first.natural (.ofTree (t.nth 2)) (.ofTree (t.nth 3)) default
  | "construct" => .construct first.string
  | "open_mapping" => .openMapping
  | "open_sequence" => .openSequence
  | "insert" => .insert first.string (.ofTree (t.nth 2)) (t.nth 3).isTrue
  | "push" => .push (.ofTree first)
  | "return_output" => .returnOutput
  | _ => .returnValue (.ofTree first)

namespace Descriptor

mutual

/-- A descriptor. What is written about it is applied in a fixed order, its place last. -/
def ofTree (S : Schema) : Tree → Descriptor
  | .object entries =>
    let part (key : String) : Option Tree := Keyed.get? key entries
    let at? (key : String) : Tree := (part key).getD .null
    let d := new S (.ofTree (at? "type")) (.ofTree (at? "value"))
    let d := (part "display_name").elim d fun name => d.labelled name.string
    let d := (part "field_index").elim d fun index => d.positioned index.natural
    let d := (argumentsOf S entries).elim d d.withArguments
    (part "at").elim d fun value => d.readFrom (.ofTree value)
  | _ => default

def argumentsOf (S : Schema) : List (String × Tree) → Option (List Descriptor)
  | [] => none
  | (key, .array args) :: entries =>
    if key = "args" then some (ofTrees S args) else argumentsOf S entries
  | _ :: entries => argumentsOf S entries

def ofTrees (S : Schema) : List Tree → List Descriptor
  | [] => []
  | t :: ts => ofTree S t :: ofTrees S ts

end

end Descriptor
end TreeCodec
