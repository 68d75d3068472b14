import TreeCodec.Schema.Basic

/-!
Hooks: conversions of single types that come from outside.

A hook takes precedence over the rule of its type. There is one for each type and direction, and the
one registered last counts.
-/
namespace TreeCodec

abbrev LoadHook := Tree → Except String Value

abbrev DumpHook := Value → Except String Tree

structure Hooks where
  load : List (Ty × LoadHook) := []
  dump : List (Ty × DumpHook) := []

namespace Hooks

def empty : Hooks := {}

def load? (hs : Hooks) (t : Ty) : Option LoadHook := Keyed.get? t hs.load

def dump? (hs : Hooks) (t : Ty) : Option DumpHook := Keyed.get? t hs.dump

def isEmpty (hs : Hooks) : Bool := hs.load.isEmpty && hs.dump.isEmpty

def registerLoad (hs : Hooks) (t : Ty) (hook : LoadHook) : Hooks :=
  { hs with load := Keyed.put t hook hs.load }

/-- A dump hook as it is kept: it refuses a value of another type. -/
def checked (S : Schema) (t : Ty) (hook : DumpHook) : DumpHook := fun v =>
  if v.ty = t then hook v
  else .error ("dump hook of `" ++ S.path t ++ "` received another type")

def registerDump (hs : Hooks) (S : Schema) (t : Ty) (hook : DumpHook) : Hooks :=
  { hs with dump := Keyed.put t (checked S t hook) hs.dump }

theorem load?_registerLoad (hs : Hooks) (t u : Ty) (hook : LoadHook) :
    (hs.registerLoad t hook).load? u = if u = t then some hook else hs.load? u :=
  Keyed.get?_put u t hook hs.load

theorem dump?_registerLoad (hs : Hooks) (t u : Ty) (hook : LoadHook) :
    (hs.registerLoad t hook).dump? u = hs.dump? u := rfl

theorem load?_registerDump (hs : Hooks) (S : Schema) (t u : Ty) (hook : DumpHook) :
    (hs.registerDump S t hook).load? u = hs.load? u := rfl

theorem dump?_registerDump (hs : Hooks) (S : Schema) (t u : Ty) (hook : DumpHook) :
    (hs.registerDump S t hook).dump? u = if u = t then some (checked S t hook) else hs.dump? u :=
  Keyed.get?_put u t (checked S t hook) hs.dump

end Hooks

/-- Switches that change how converters are compiled. -/
structure Options where
  -- Log the listing of everything compiled.
  debug : Bool := false
  -- Loading a mapping fails on keys that belong to no field.
  denyUnknownKeys : Bool := false
  -- Dumping a mapping skips fields that are dumped as null.
  omitNull : Bool := false
  deriving DecidableEq, Repr, Inhabited

end TreeCodec
