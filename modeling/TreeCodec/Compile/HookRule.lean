import TreeCodec.Compile.Converter

/-!
Rules for hooks, as data.

A rule builds on what the converters of the type do when there are no hooks. For a type that has no
converters it keeps the tree.
-/
namespace TreeCodec

inductive HookRule where
  | accept
  | fail (message : String)
  -- One tree in place of every other.
  | const (out : Tree)
  -- Trees of one kind.
  | only (kind : TreeKind) (message : String)
  -- The trees of the first column, each replaced by the one next to it.
  | table (rows : List (Tree × Tree)) (message : String)

namespace HookRule

variable (S : Schema)

/-- Whether values of a declared type are trees. -/
def keepsTree (t : Ty) : Bool :=
  match t, S.kind t with
  | .declared _, .dynamic | .declared _, .foreign => true
  | _, _ => false

private def outcomeText {α : Type} : Outcome α → Except String α
  | .done a => .ok a
  | .failed e => .error e.message
  | .unfinished => .error "the conversion does not end"

def acceptLoad (t : Ty) : LoadHook := fun tree => do
  if keepsTree S t then return .tree t tree
  let l ← (compileLoader S {} {} t).result.mapError CodegenError.message
  outcomeText (l.loadAs S t tree).outcome

def acceptDump (t : Ty) : DumpHook := fun v =>
  match keepsTree S t, v with
  | true, .tree _ tree => .ok tree
  | _, _ => do
    let d ← (compileDumper S {} {} t).result.mapError CodegenError.message
    outcomeText (d.dump S v).outcome

/-- What a rule makes of a tree, before it is loaded or after it is dumped. -/
def replace : HookRule → Tree → Except String Tree
  | accept, t => .ok t
  | fail message, _ => .error message
  | const out, _ => .ok out
  | only kind message, t => if t.kind = kind then .ok t else .error message
  | table rows message, t =>
    match rows.find? fun row => row.1.same t with
    | some row => .ok row.2
    | none => .error message

def load (t : Ty) (r : HookRule) : LoadHook := fun tree => do acceptLoad S t (← r.replace tree)

def dump (t : Ty) (r : HookRule) : DumpHook := fun v =>
  match r with
  | fail message => .error message
  | const out => .ok out
  | r => do r.replace (← acceptDump S t v)

end HookRule

/-- A load hook for every foreign type that is declared, which accepts every tree. -/
def Hooks.accepting (S : Schema) : Hooks :=
  S.declarations.foldl (fun hs (id, d) =>
    match d.definition with
    | .foreign => hs.registerLoad (.declared id) (HookRule.acceptLoad S (.declared id))
    | _ => hs) {}

end TreeCodec
