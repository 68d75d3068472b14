import TreeCodec.Schema.Error
import TreeCodec.Number.Numeral
import TreeCodec.Tree.Basic

/-!
What can go wrong while a tree or a value is converted.

An error has a cause, the path from the root to the place where it arose, and the trail of the
procedures that it left on its way out, innermost first.
-/
namespace TreeCodec

/-- Why a tree is not a scalar although it is of the right kind. -/
inductive ScalarFault where
  | outOfRange (n : Number)
  | notInteger (n : Number)
  | negative (n : Number)
  | notUnsigned (n : Number)
  | integerText (text : String) (fault : IntegerFault)
  | decimalText (text : String) (fault : DecimalFault)
  | notZeroOrOne (n : Number)
  | notBoolean (text : String)
  | notOneCharacter (text : String)
  deriving DecidableEq, Repr

def ScalarFault.message : ScalarFault → String
  | outOfRange n => n.text ++ " is out of range"
  | notInteger n => n.text ++ " is not an integer"
  | negative n => n.text ++ " is negative"
  | notUnsigned n => n.text ++ " is not an unsigned integer"
  | integerText text fault => "`" ++ text ++ "`: " ++ fault.message
  | decimalText text fault => "`" ++ text ++ "`: " ++ fault.message
  | notZeroOrOne n => n.text ++ " is neither 0 nor 1"
  | notBoolean text => "`" ++ text ++ "` is not a boolean"
  | notOneCharacter text => "`" ++ text ++ "` is not one character"

/-- What a tree was expected to be. -/
inductive Expected where
  | mapping
  | sequence
  | scalar (k : ScalarKind)
  deriving DecidableEq, Repr

def Expected.text : Expected → String
  | mapping => "object"
  | sequence => "array"
  | scalar k => k.text

inductive Fault where
  | missing
  | typeMismatch (expected : Expected) (found : TreeKind)
  | invalidScalar (kind : ScalarKind) (reason : ScalarFault)
  | length (expected found : Nat)
  | unknownKey (key : String)
  | nonStringKey
  | noVariant (ty : String)
  | schema (e : SchemaError)
  | hook (message : String)
  deriving DecidableEq, Repr

def Fault.code : Fault → String
  | missing => "Missing"
  | typeMismatch .. => "TypeMismatch"
  | invalidScalar .. => "InvalidScalar"
  | length .. => "Length"
  | unknownKey _ => "UnknownKey"
  | nonStringKey => "NonStringKey"
  | noVariant _ => "NoVariant"
  | schema e => "Schema." ++ e.code
  | hook _ => "Hook"

def Fault.message : Fault → String
  | missing => "missing required value"
  | typeMismatch expected found => "expected " ++ expected.text ++ ", found " ++ found.text
  | invalidScalar kind reason => "invalid " ++ kind.text ++ ": " ++ reason.message
  | length expected found =>
    "expected " ++ toString expected ++ " elements, found " ++ toString found
  | unknownKey key => "unknown key `" ++ key ++ "`"
  | nonStringKey => "map key does not dump to a string or number"
  | noVariant ty => "no variant of `" ++ ty ++ "` accepts the value"
  | schema e => e.message
  | hook message => "hook failed: " ++ message

/-- One step from a value to a value within it. -/
inductive PathStep where
  | key (k : String)
  | index (i : Nat)
  deriving DecidableEq, Repr

private def stepsText : List PathStep → String
  | [] => ""
  | .key k :: rest => "." ++ k ++ stepsText rest
  | .index i :: rest => "[" ++ toString i ++ "]" ++ stepsText rest

/-- A path as it stands in messages: `people[1].name`, or `$` for the root. -/
def pathText : List PathStep → String
  | [] => "$"
  | .key k :: rest => k ++ stepsText rest
  | rest => stepsText rest

structure ConversionError where
  fault : Fault
  path : List PathStep := []
  trail : List String := []
  deriving DecidableEq, Repr

namespace ConversionError

def message (e : ConversionError) : String := e.fault.message ++ " at `" ++ pathText e.path ++ "`"

/-- The error, seen from one step further out. -/
def within (step : PathStep) (e : ConversionError) : ConversionError :=
  { e with path := step :: e.path }

/-- The error after it has left a procedure. -/
def through (procedure : String) (e : ConversionError) : ConversionError :=
  { e with trail := e.trail ++ [procedure] }

@[simp] theorem within_fault (s : PathStep) (e : ConversionError) : (e.within s).fault = e.fault :=
  rfl

@[simp] theorem through_fault (p : String) (e : ConversionError) : (e.through p).fault = e.fault :=
  rfl

@[simp] theorem through_path (p : String) (e : ConversionError) : (e.through p).path = e.path := rfl

end ConversionError
end TreeCodec
