import TreeCodec.Compile.HookRule

/-!
Defaults that are written as trees.

Such a default is loaded by the loader of a type, and loading it may use other defaults. The
defaults are therefore loaded in rounds, each with those of the round before it, until they stay as
they are.
-/
namespace TreeCodec

structure WrittenDefault where
  -- The declaration and the position of the field.
  owner : String
  index : Nat
  -- The type that the tree is loaded as.
  ty : Ty
  tree : Tree

namespace Schema

variable (S : Schema)

/-- What the loader of a type makes of a tree, foreign types keeping theirs. -/
def make? (t : Ty) (tree : Tree) : Option Value :=
  match (compileLoader S {} (Hooks.accepting S) t).result with
  | .ok l =>
    match (l.load S tree).outcome with
    | .done v => some v
    | _ => none
  | .error _ => none

/-- What stands in for a default that cannot be loaded. -/
def placeholder : Value := .tuple []

def make (t : Ty) (tree : Tree) : Value := (S.make? t tree).getD placeholder

/-- The schema with defaults for the fields at some places. -/
def withDefaults (values : List ((String × Nat) × Value)) : Schema where
  declarations := S.declarations.map fun (id, d) =>
    match d.definition with
    | .record fields positional =>
      let fields := fields.mapIdx fun i f =>
        match Keyed.get? (id, i) values with
        | some v => { f with default := some v }
        | none => f
      (id, { d with definition := .record fields positional })
    | _ => (id, d)

/-- At most `rounds` more rounds after the values of one. -/
def settle (written : List WrittenDefault) (values : List ((String × Nat) × Value)) : Nat → Schema
  | 0 => S.withDefaults values
  | rounds + 1 =>
    let current := S.withDefaults values
    let next := written.map fun w => ((w.owner, w.index), current.make w.ty w.tree)
    if next = values then current else settle written next rounds

/-- The schema with written defaults. No default is loaded by means of more others than there are.
-/
def withWritten (written : List WrittenDefault) : Schema :=
  S.settle written (written.map fun w => ((w.owner, w.index), placeholder)) (written.length + 1)

end Schema
end TreeCodec
