import TreeCodec.Compile.Converter
import TreeCodec.Store.Cell
import TreeCodec.Tree.Reader

/-!
Codecs: converters of all types under one set of options and hooks.

The loader and the dumper of a type are compiled when they are first asked for, and kept. A hook
makes the codec forget the converters of its direction, which were compiled without it.
-/
namespace TreeCodec

structure Codec where
  options : Options := {}
  hooks : Hooks := {}
  loaders : Cell (Compiled Loader) := {}
  dumpers : Cell (Compiled Dumper) := {}

inductive CodecError where
  | codegen (e : CodegenError)
  | conversion (e : ConversionError)
  -- A text is not JSON.
  | json
  -- The conversion was cut off.
  | unfinished
  deriving DecidableEq

/-- A codec in use, and its log. -/
structure Session where
  codec : Codec := {}
  log : List LogRecord := []

abbrev CodecM := ReaderT Schema (EStateM CodecError Session)

namespace Codec

def new (options : Options) : Codec := { options }

/-- The number of types with a loader and with a dumper. -/
def compiled (c : Codec) : Nat × Nat := (c.loaders.size, c.dumpers.size)

def addLoadHook (c : Codec) (t : Ty) (hook : LoadHook) : Codec :=
  { c with hooks := c.hooks.registerLoad t hook, loaders := c.loaders.clear }

def addDumpHook (c : Codec) (S : Schema) (t : Ty) (hook : DumpHook) : Codec :=
  { c with hooks := c.hooks.registerDump S t hook, dumpers := c.dumpers.clear }

def cacheHit : LogRecord := ⟨.trace, "compiled cache hit"⟩

/-- The loader of a type, and the codec that keeps it. -/
def requestLoader (c : Codec) (S : Schema) (t : Ty) : Kept (Compiled Loader) × Codec :=
  let (k, loaders) := c.loaders.get t fun _ => compileLoader S c.options c.hooks t
  (k, { c with loaders })

def requestDumper (c : Codec) (S : Schema) (t : Ty) : Kept (Compiled Dumper) × Codec :=
  let (k, dumpers) := c.dumpers.get t fun _ => compileDumper S c.options c.hooks t
  (k, { c with dumpers })

private def field (name value : String) : String := name ++ ": " ++ value

private def shown (head : String) (fields : List String) : String :=
  head ++ " \x7b " ++ ", ".intercalate fields ++ " \x7d"

def describe (c : Codec) : String :=
  let options := shown "Options" [field "debug" (toString c.options.debug),
    field "deny_unknown_keys" (toString c.options.denyUnknownKeys),
    field "omit_null" (toString c.options.omitNull)]
  let hooks := shown "Hooks" [field "load" (toString c.hooks.load.length),
    field "dump" (toString c.hooks.dump.length)]
  shown "Codec" [field "options" options, field "hooks" hooks,
    field "loaders" (toString c.loaders.size), field "dumpers" (toString c.dumpers.size)]

end Codec

namespace CodecM

/-- The result of a compilation that was asked for. Its log is new unless the result was kept. -/
def deliver {α : Type} (wasKept : Bool) (x : Compiled α) : CodecM α := do
  let log := if wasKept then [Codec.cacheHit] else x.log
  modify fun s => { s with log := s.log ++ log }
  match x.result with
  | .ok a => return a
  | .error e => throw (.codegen e)

/-- The result of a conversion. -/
def convert {α : Type} (r : Run α) : CodecM α := do
  modify fun s => { s with log := s.log ++ r.log }
  match r.outcome with
  | .done a => return a
  | .failed e => throw (.conversion e)
  | .unfinished => throw .unfinished

def loader (t : Ty) : CodecM (Kept (Compiled Loader) × Loader) := do
  let s ← get
  let (k, codec) := s.codec.requestLoader (← read) t
  set { s with codec }
  let l ← deliver (s.codec.loaders.holds t) k.value
  return (k, l)

def dumper (t : Ty) : CodecM (Kept (Compiled Dumper) × Dumper) := do
  let s ← get
  let (k, codec) := s.codec.requestDumper (← read) t
  set { s with codec }
  let d ← deliver (s.codec.dumpers.holds t) k.value
  return (k, d)

def load (t : Ty) (input : Tree) : CodecM Value := do
  let (_, l) ← loader t
  convert (l.loadAs (← read) t input)

/-- Loads every element of an array as a value of type `t`. -/
def loadList (t : Ty) (input : Tree) : CodecM Value := load (.list .vector t) input

def dump (v : Value) : CodecM Tree := do
  let (_, d) ← dumper v.ty
  convert (d.dump (← read) v)

def fromJson (t : Ty) (text : String) : CodecM Value := do
  match Tree.read? text with
  | some input => load t input
  | none => throw .json

def toJson (v : Value) : CodecM String := do
  let t ← dump v
  return t.write

end CodecM
end TreeCodec
