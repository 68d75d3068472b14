import TreeCodec.Store.Keyed

/-!
The keys of a settings file.

A file consists of headings, which open a table, and of assignments, which give a key a value. Both
name their key by a dotted path, and the tables that a path leads through come into being with it.
An outline says of each path in a file how it came to be. A file that defines a key twice has none.
-/
namespace TreeCodec

/-- How a key came to be. -/
inductive KeyOrigin where
  -- By a heading of its own.
  | heading
  -- As a table that a heading leads through.
  | implied
  -- As a table that an assignment leads through.
  | dotted
  -- By an assignment.
  | value
  deriving DecidableEq, Repr

abbrev KeyPath := List String

namespace KeyPath

/-- The characters of a name that stands without quotes. -/
def isBare (c : Char) : Bool := c.isAlphanum || c = '_' || c = '-'

/-- One name of a path, which may stand in quotes. -/
def name? (cs : List Char) : Option String :=
  let blank (c : Char) : Bool := c = ' ' || c = '\t'
  match ((cs.dropWhile blank).reverse.dropWhile blank).reverse with
  | [] => none
  | q :: r =>
    if q = '"' ∨ q = '\'' then
      if r.getLast? = some q then some (String.ofList r.dropLast) else none
    else if (q :: r).all isBare then some (String.ofList (q :: r)) else none

/-- Cuts a path at its dots. A dot between quotes is part of a name. -/
def pieces (quote : Option Char) (piece : List Char) : List Char → List (List Char)
  | [] => [piece]
  | c :: r =>
    match quote with
    | some q => pieces (if c = q then none else some q) (piece ++ [c]) r
    | none =>
      if c = '.' then piece :: pieces none [] r
      else pieces (if c = '"' ∨ c = '\'' then some c else none) (piece ++ [c]) r

def ofText? (text : String) : Option KeyPath := (pieces none [] text.toList).mapM name?

/-- The paths of the tables that lead to the end of a path. -/
def tables : KeyPath → List KeyPath
  | [] => []
  | [_] => []
  | name :: rest => [name] :: (tables rest).map (name :: ·)

end KeyPath

/-- The keys of a file, by their paths. -/
abbrev Outline := List (KeyPath × KeyOrigin)

namespace Outline

/-- Passes through tables, which come into being unless they are there. -/
def enter? (origin : KeyOrigin) (passes : KeyOrigin → Bool) (tables : List KeyPath) (o : Outline) :
    Option Outline :=
  tables.foldlM (fun o path =>
    match Keyed.get? path o with
    | none => some (Keyed.put path origin o)
    | some there => if passes there then some o else none) o

/-- Opens a table. One that other headings lead through may still be opened. -/
def heading? (path : KeyPath) (o : Outline) : Option Outline := do
  let o ← o.enter? .implied (· ≠ .value) path.tables
  match Keyed.get? path o with
  | none => some (Keyed.put path .heading o)
  | some .implied => some (Keyed.put path .heading o)
  | some _ => none

/-- Assigns a value to a key in an open table. The tables in between must not have headings. -/
def assign? (base path : KeyPath) (o : Outline) : Option Outline := do
  let between := path.tables.map (base ++ ·)
  let o ← o.enter? .dotted (fun there => there = .implied || there = .dotted) between
  match Keyed.get? (base ++ path) o with
  | none => some (Keyed.put (base ++ path) .value o)
  | some _ => none

end Outline

end TreeCodec
