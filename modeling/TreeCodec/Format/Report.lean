import TreeCodec.Codec
import TreeCodec.Text.Template
import TreeCodec.Tree.Access
import TreeCodec.Value.Shown

/-!
Results and errors as trees.
-/
namespace TreeCodec

/-- An error by its kind and its message. -/
def errorReport (kind message : String) : Tree :=
  .object [("error", .text kind), ("message", .text message)]

def SchemaError.report (e : SchemaError) : Tree := errorReport ("Schema." ++ e.code) e.message

def KindMismatch.report (e : KindMismatch) : Tree := errorReport "TypeKind" e.message

def Fault.report (f : Fault) : Tree := errorReport ("Conversion." ++ f.code) f.message

def PathStep.report : PathStep → Tree
  | key k => .text k
  | index i => .ofNat i

def ConversionError.report (e : ConversionError) : Tree :=
  .object [("error", .text ("Conversion." ++ e.fault.code)), ("message", .text e.message),
    ("path", .array (e.path.map PathStep.report)), ("trail", .ofStrings e.trail)]

def CodegenError.report (e : CodegenError) : Tree := errorReport ("Codegen." ++ e.code) e.message

/-- What is reported of a conversion that was cut off. -/
def unfinishedReport : Tree := .object [("error", .text "Unfinished")]

def CodecError.report : CodecError → Tree
  | codegen e => e.report
  | conversion e => e.report
  | json => .object [("error", .text "Json")]
  | unfinished => unfinishedReport

/-- A result, or the report of what went wrong. -/
def reportOf {ε α : Type} (failed : ε → Tree) (done : α → Tree) : Except ε α → Tree
  | .ok a => done a
  | .error e => failed e

def Outcome.report {α : Type} (done : α → Tree) : Outcome α → Tree
  | .done a => done a
  | .failed e => e.report
  | .unfinished => unfinishedReport

/-- The marks in front of the identity of a target. -/
def identityMarks : List String := [" for Origin(", " for Arguments("]

/-- A log record as a line. It ends where the identity of a target would be told, which differs from
run to run. -/
def LogRecord.report (r : LogRecord) : Tree :=
  let text := identityMarks.foldl (fun cs mark => Text.before mark.toList cs) r.text.toList
  .text ({ r with text := String.ofList text }).line

def Schema.valueReport (S : Schema) (v : Value) : Tree := .object [("value", S.shown v)]

def Tree.report (t : Tree) : Tree := .object [("dump", .text t.write)]

end TreeCodec
