import TreeCodec.Compile.Defaults
import TreeCodec.Tree.Access
import TreeCodec.Tree.Reader

/-!
Types, schemas, options and hooks that are written as trees.

A type is its name, or an array of a type constructor and its arguments. A declaration is an object;
what it is called is given apart from it.
-/
namespace TreeCodec

def ScalarTy.named : List (String × ScalarTy) := [
  ("bool", .bool), ("char", .char), ("String", .string), ("f32", .float .f32), ("f64", .float .f64),
  ("i8", .int .i8), ("i16", .int .i16), ("i32", .int .i32), ("i64", .int .i64),
  ("isize", .int .isize), ("u8", .int .u8), ("u16", .int .u16), ("u32", .int .u32),
  ("u64", .int .u64), ("usize", .int .usize)]

namespace Ty

def ofName (name : String) : Ty :=
  if name = "Value" then .dynamic
  else
    match Keyed.get? name ScalarTy.named with
    | some s => .scalar s
    | none => .declared name

/-- A type constructor applied to arguments. One that is not known makes a tuple of them. -/
def applied (constructor : String) (args : List Ty) : Ty :=
  match constructor, args with
  | "Option", [t] => .optional t
  | "Box", [t] => .boxed t
  | "Vec", [t] => .list .vector t
  | "VecDeque", [t] => .list .deque t
  | "HashMap", [k, v] => .map .unordered k v
  | "BTreeMap", [k, v] => .map .ordered k v
  | _, ts => .tuple ts

mutual

def ofTree : Tree → Ty
  | .text name => ofName name
  | .array (head :: args) => applied head.string (ofTrees args)
  | _ => .dynamic

def ofTrees : List Tree → List Ty
  | [] => []
  | t :: ts => ofTree t :: ofTrees ts

end

end Ty

def Field.ofTree (f : Tree) : Field where
  name := (f.get "name").string
  key := ((f.get? "key").getD (f.get "name")).string
  ty := .ofTree (f.get "type")
  param := (f.get? "param").map Tree.natural

def Definition.ofTree (d : Tree) : Definition :=
  match (d.get "kind").string, d.get? "variants" with
  | "opaque", _ => .foreign
  | "dynamic", _ => .dynamic
  | _, some vs =>
    .union (vs.items.map fun v => { name := (v.get "name").string, ty := .ofTree (v.get "type") })
  | _, none => .record ((d.get "fields").items.map Field.ofTree) (d.flag "positional")

def Declaration.ofTree (names : TypeNames) (d : Tree) : Declaration where
  names := names
  definition := .ofTree d
  generics := (d.get "generics").items.map fun g => ((g.nth 0).string, .ofTree (g.nth 1))

/-- The tree that a text spells, or null. -/
def Tree.spelled (t : Tree) : Tree := (Tree.read? t.string).getD .null

/-- The defaults of the fields of a record, the next one being number `index`. -/
def WrittenDefault.ofFields (owner : String) (index : Nat) : List Tree → List WrittenDefault
  | [] => []
  | f :: fs =>
    let rest := ofFields owner (index + 1) fs
    match f.get? "default" with
    | some text =>
      let ty := Ty.ofTree ((f.get? "default_type").getD (f.get "type"))
      { owner, index, ty, tree := text.spelled } :: rest
    | none => rest

/-- The schema of declarations that are written under their ids. A type that is named but not
declared is foreign. -/
def Schema.ofTree (names : List (String × TypeNames)) (declared : Tree) : Schema :=
  let declarations := names.map fun (id, names) =>
    match declared.get? id with
    | some d => (id, Declaration.ofTree names d)
    | none => (id, { names, definition := .foreign })
  Schema.withWritten { declarations } (declared.entries.flatMap fun (id, d) =>
    WrittenDefault.ofFields id 0 (d.get "fields").items)

/-- A value, written as its type and the text that its loader makes it of. -/
def Schema.valueOf (S : Schema) (t : Tree) : Value := S.make (.ofTree (t.nth 0)) (t.nth 1).spelled

def Options.ofTree (t : Tree) : Options where
  debug := t.flag "debug"
  denyUnknownKeys := t.flag "deny_unknown_keys"
  omitNull := t.flag "omit_null"

def TreeKind.ofText (s : String) : TreeKind :=
  ([.bool, .number, .string, .array, .object].find? fun k => k.text = s).getD .null

def HookRule.ofTree (h : Tree) : HookRule :=
  let message := (h.get "message").string
  match (h.get "mode").string with
  | "fail" => .fail message
  | "const" => .const (h.get "out").spelled
  | "only" => .only (.ofText (h.get "kind").string) message
  | "table" =>
    .table ((h.get "rows").items.map fun r => ((r.nth 0).spelled, (r.nth 1).spelled)) message
  | _ => .accept

/-- Hooks in the order in which they are registered, each with its direction and type. -/
def Hooks.ofTree (S : Schema) (t : Tree) : Hooks :=
  t.items.foldl (fun hs entry =>
    let ty := Ty.ofTree (entry.nth 1)
    let rule := HookRule.ofTree (entry.nth 2)
    if (entry.nth 0).string = "load" then hs.registerLoad ty (rule.load S ty)
    else hs.registerDump S ty (rule.dump S ty)) {}

end TreeCodec
