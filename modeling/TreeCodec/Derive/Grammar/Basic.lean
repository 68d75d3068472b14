import TreeCodec.Derive.Item
import TreeCodec.Derive.Reader

/-!
What the rules of the grammar know of each other.

Types, expressions, patterns, statements and items contain each other. A rule takes the rules for
what it contains as an argument, so each rule is a plain definition; `Rules.closed` closes the loop.
A rule tells the form of what it read, as far as what may follow depends on it.
-/
namespace TreeCodec.Derive

/-- How tightly an operator binds. -/
inductive Precedence where
  | lowest | assignment | range | or | and | condition | comparison | bitOr | bitXor | bitAnd
  | shift | sum | product | cast
  deriving DecidableEq, Repr

namespace Precedence

def rank : Precedence → Nat
  | lowest => 0
  | assignment => 1
  | range => 2
  | or => 3
  | and => 4
  | condition => 5
  | comparison => 6
  | bitOr => 7
  | bitXor => 8
  | bitAnd => 9
  | shift => 10
  | sum => 11
  | product => 12
  | cast => 13

end Precedence

inductive TypeForm where
  -- A path of one name, which may have arguments.
  | name
  -- Another path.
  | path
  -- Bounds without `dyn`, and whether it is one bound without a `+`.
  | object (single : Bool)
  | other
  deriving DecidableEq, Repr

inductive BoundForm where
  | trait | lifetime | capture
  deriving DecidableEq, Repr

inductive Form where
  -- A form with a block that ends a statement.
  | block
  -- A call whose arguments are tokens, and whether they stand in braces.
  | invocation (braces : Bool)
  | range (ended : Bool)
  | comparison
  -- A form that stands as it is written.
  | verbatim
  | other
  deriving DecidableEq, Repr

namespace Form

/-- Whether a statement of this form needs a mark at its end. -/
def needsMark : Form → Bool
  | block => false
  | invocation braces => !braces
  | _ => true

/-- Whether an arm of this form needs a comma at its end. -/
def needsComma (f : Form) : Bool := f ≠ block

def isRange : Form → Bool
  | range _ => true
  | _ => false

end Form

inductive PatternForm where
  -- `..`
  | remainder
  -- A range without one of its ends.
  | halfRange
  | other
  deriving DecidableEq, Repr

structure Rules where
  -- A type, which may be a sum of bounds.
  type : (sum : Bool) → Reader TypeForm
  -- A bound, which may be a capture or be constant.
  bound : (capture constant : Bool) → Reader BoundForm
  -- An expression, which may end in a record.
  expression : (records : Bool) → Reader Form
  -- An operand with its prefix operators.
  operand : (records : Bool) → Reader Form
  -- The operators after an operand that bind at least as tightly as the precedence.
  operators : Form → (records : Bool) → Precedence → Reader Form
  -- An expression that ends at the end of a block.
  clause : Reader Form
  pattern : Reader PatternForm
  -- A block that may have attributes of its own.
  block : Reader Unit
  statements : Reader Unit
  item : Reader Unit
  -- What is imported, where a path may start at the root.
  importTree : (root : Bool) → Reader Unit
  -- The fields of a record, in braces.
  fields : Reader (List Field)

namespace Rules

/-- Rules that read nothing. -/
def empty : Rules where
  type _ := throw (.leftover none)
  bound _ _ := throw (.leftover none)
  expression _ := throw (.leftover none)
  operand _ := throw (.leftover none)
  operators _ _ _ := throw (.leftover none)
  clause := throw (.leftover none)
  pattern := throw (.leftover none)
  block := throw (.leftover none)
  statements := throw (.leftover none)
  item := throw (.leftover none)
  importTree _ := throw (.leftover none)
  fields := throw (.leftover none)

/-- Closes the loop for texts whose forms nest no deeper than a bound. -/
def closed (step : Rules → Rules) : Nat → Rules
  | 0 => empty
  | n + 1 => step (closed step n)

end Rules

end TreeCodec.Derive
