import TreeCodec.Compile.Engine
import TreeCodec.Procedure.Unit

/-!
Loaders and dumpers: the compiled converters of one type.
-/
namespace TreeCodec

/-- What a compilation gave or why it failed, and its log. -/
structure Compiled (α : Type) where
  result : Except CodegenError α
  log : List LogRecord

def Compiled.bind {α β : Type} (x : Compiled α) (f : α → Compiled β) : Compiled β :=
  match x.result with
  | .ok a => ⟨(f a).result, x.log ++ (f a).log⟩
  | .error e => ⟨.error e, x.log⟩

/-- The procedures of a type, not linked yet. -/
structure Source where
  builder : Builder
  entry : String

section

variable (S : Schema) (options : Options) (hooks : Hooks)

/-- Compiles the entry procedure of a type in a context of its own, and all that it calls. -/
def entryStep (d : Direction) (root : Ty) : CompileM String := do
  let wrappers := WrapperSet.new S d [root]
  wrappers.root.procedureOf (.new S root (← CompileM.param))

def compiledLog (d : Direction) (root : Ty) (source : Source) : List LogRecord :=
  let path := S.path root
  let listing : List LogRecord :=
    if options.debug then
      [⟨.debug, "generated source of `" ++ path ++ "`:\n" ++ source.builder.listing⟩]
    else []
  ⟨.debug, "compiled " ++ d.text ++ "er of `" ++ path ++ "`: " ++
    toString source.builder.sealed.length ++ " procedures, entry `" ++ source.entry ++ "`"⟩ ::
    listing

/-- Compiles the procedures of a type for one direction. -/
def compileProcedures (d : Direction) (root : Ty) : Compiled Source :=
  let context := Context.new (Text.identifier (S.name root))
  match (entryStep S d root).run ⟨S, d, hooks, options⟩ |>.run context with
  | .ok entry c =>
    let source : Source := ⟨c.builder, entry⟩
    ⟨.ok source, c.log ++ compiledLog S options d root source⟩
  | .error e c => ⟨.error e, c.log⟩

structure Loader where
  unit : CompiledUnit
  entry : Nat
  entryName : String
  root : Ty

structure Dumper where
  unit : CompiledUnit
  entry : Nat
  entryName : String
  root : Ty

/-- A converter as it is shown to people. -/
def describeConverter (kind entry : String) (unit : CompiledUnit) : String :=
  kind ++ " \x7b entry: " ++ Text.quoted entry ++ ", unit: " ++ unit.describe ++ " \x7d"

private def wrongEntry (unit : CompiledUnit) (entry : String) (d : Direction) : CodegenError :=
  .compilation entry unit.record (.entryDirection d) unit.listing

def Loader.ofUnit (unit : CompiledUnit) (entry : String) (root : Ty) :
    Except CodegenError Loader :=
  match unit.loader? entry with
  | some index => .ok ⟨unit, index, entry, root⟩
  | none => .error (wrongEntry unit entry .load)

def Dumper.ofUnit (unit : CompiledUnit) (entry : String) (root : Ty) :
    Except CodegenError Dumper :=
  match unit.dumper? entry with
  | some index => .ok ⟨unit, index, entry, root⟩
  | none => .error (wrongEntry unit entry .dump)

def compileLoader (root : Ty) : Compiled Loader :=
  (compileProcedures S options hooks .load root).bind fun source =>
    ⟨do Loader.ofUnit (← source.builder.link S) source.entry root, []⟩

def compileDumper (root : Ty) : Compiled Dumper :=
  (compileProcedures S options hooks .dump root).bind fun source =>
    ⟨do Dumper.ofUnit (← source.builder.link S) source.entry root, []⟩

end

namespace Loader

variable (l : Loader) (S : Schema)

def listing : String := l.unit.listing

def describe : String := describeConverter "Loader" l.entryName l.unit

/-- Loads a tree that may be absent. The default stands in for an absent tree, and is not checked.
-/
def loadOr (input : Option Tree) (default : Option Value) : Run Value :=
  l.unit.load S l.entry input default

def load (t : Tree) : Run Value := l.loadOr S (some t) none

/-- Loads a tree as a value of type `t`, which has to be the type of the loader. -/
def loadAs (t : Ty) (input : Tree) : Run Value := do
  let v ← l.load S input
  if v.ty = t then return v else Run.fault (.schema (.valueType (S.path l.root)))

end Loader

namespace Dumper

variable (d : Dumper) (S : Schema)

def listing : String := d.unit.listing

def describe : String := describeConverter "Dumper" d.entryName d.unit

/-- Dumps a value, which has to be of the type of the dumper. -/
def dump (v : Value) : Run Tree :=
  if v.ty = d.root then d.unit.dump S d.entry v
  else Run.fault (.schema (.valueType (S.path d.root)))

end Dumper
end TreeCodec
