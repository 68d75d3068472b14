import TreeCodec.Procedure.Listing

/-!
What can go wrong before anything is converted: while procedures are built, and while their names
are resolved.
-/
namespace TreeCodec

/-- An operation of a builder that its state does not allow. -/
inductive Misuse where
  | nothingToSeal
  | emittedOutside (stmt : Stmt)
  | boundOutside (name : String)
  | mergeWhilePending (procedure : String)
  | linkWhilePending (procedure : String)
  | noNameReserved
  | other (message : String)
  deriving DecidableEq

def Misuse.message : Misuse → String
  | nothingToSeal => "no procedure to seal"
  | emittedOutside stmt => "`" ++ stmt.text ++ "` emitted outside any procedure"
  | boundOutside name => "`" ++ name ++ "` bound outside any procedure"
  | mergeWhilePending procedure => "cannot merge while `" ++ procedure ++ "` is still open"
  | linkWhilePending procedure => "cannot materialize while `" ++ procedure ++ "` is still open"
  | noNameReserved => "no procedure name reserved"
  | other message => message

/-- What a local name was found to be bound to. -/
inductive BindingKind where
  | type (name : String)
  | loadHook
  | dumpHook
  | default
  deriving DecidableEq, Repr

def BindingKind.text : BindingKind → String
  | type name => name
  | loadHook => "<load hook>"
  | dumpHook => "<dump hook>"
  | default => "<default>"

def Binding.kind (S : Schema) : Binding → BindingKind
  | type t => .type (S.name t)
  | loadHook _ => .loadHook
  | dumpHook _ => .dumpHook
  | default _ => .default

theorem Binding.text_kind (S : Schema) (b : Binding) : (b.kind S).text = b.text S := by
  cases b <;> rfl

/-- What a procedure puts out before it inserts or pushes. -/
inductive OutputKind where
  | mapping | sequence
  deriving DecidableEq, Repr

def OutputKind.stmt : OutputKind → Stmt
  | mapping => .openMapping
  | sequence => .openSequence

/-- Why a procedure is not well formed. -/
inductive LinkFault where
  | noParameter
  | unbound (name : String)
  | notType (name : String) (found : BindingKind)
  | notDefault (name : String) (found : BindingKind)
  | notHelper (name : String) (direction : Direction) (found : BindingKind)
  | notLeaf (helper : String) (found : TypeKind)
  | helperKind (helper : String) (mismatch : KindMismatch)
  | alternatives (helper : String) (variants given : Nat)
  | outOfScope (name : String)
  | notTree (operand : Operand)
  | notValue (operand : Operand)
  | ownerKind (operand : Operand) (mismatch : KindMismatch)
  | noField (operand : Operand) (owner : String) (index : Nat)
  | noElement (operand : Operand) (owner : String) (index : Nat)
  | undefinedProcedure (name : String)
  | wrongDirection (procedure : String) (expected : Direction)
  | lengthBounds (min len : Nat)
  | uncheckedKeys
  | slotOrder (slot : Nat)
  | arity (cls : String) (assigned : Nat)
  | notConstructible (cls : String) (found : TypeKind)
  | unusedSlots
  | misplaced (stmt : Stmt) (direction : Direction)
  | misplacedAfter (stmt : Stmt) (output : OutputKind)
  | neverReturns
  | afterReturn (stmt : Stmt)
  | entryDirection (expected : Direction)
  deriving DecidableEq

namespace LinkFault

private def ticked (s : String) : String := "`" ++ s ++ "`"

private def helper (name : String) : String := "helper " ++ ticked name

def message : LinkFault → String
  | noParameter => "procedure has no parameter"
  | unbound name => ticked name ++ " is not bound"
  | notType name found =>
    ticked name ++ " is bound to " ++ found.text ++ ", not to type information"
  | notDefault name found => ticked name ++ " is bound to " ++ found.text ++ ", not a default"
  | notHelper name direction found =>
    ticked name ++ " is bound to " ++ found.text ++ ", not a " ++ direction.text ++ " helper"
  | notLeaf name found =>
    helper name ++ " is bound to a " ++ found.text ++ ", not a scalar or dynamic type"
  | helperKind name mismatch => helper name ++ ": " ++ mismatch.message
  | alternatives name variants given =>
    helper name ++ " has " ++ toString variants ++ " variants, but " ++ toString given ++
      " alternatives are given"
  | outOfScope name => ticked name ++ " is not in scope"
  | notTree operand => ticked operand.text ++ " reads a value, not a tree"
  | notValue operand => ticked operand.text ++ " reads a tree, not a value"
  | ownerKind operand mismatch => ticked operand.text ++ ": " ++ mismatch.message
  | noField operand owner index =>
    ticked operand.text ++ ": " ++ ticked owner ++ " has no field #" ++ toString index
  | noElement operand owner index =>
    ticked operand.text ++ ": " ++ ticked owner ++ " has no element #" ++ toString index
  | undefinedProcedure name => "procedure " ++ ticked name ++ " is not defined"
  | wrongDirection procedure expected =>
    ticked procedure ++ " is not a " ++ expected.text ++ " procedure"
  | lengthBounds min len =>
    "minimum length " ++ toString min ++ " exceeds length " ++ toString len
  | uncheckedKeys => "unknown keys are rejected on a value not checked as a mapping"
  | slotOrder slot => "slot f" ++ toString slot ++ " assigned out of order"
  | arity cls assigned =>
    ticked cls ++ " is built from " ++ toString assigned ++
      " assigned slots, which does not match its arity"
  | notConstructible cls found =>
    ticked cls ++ " is a " ++ found.text ++ ", not a record or tuple"
  | unusedSlots => "assigned slots are never used"
  | misplaced stmt direction =>
    ticked stmt.text ++ " is not valid in a " ++ direction.text ++ " procedure"
  | misplacedAfter stmt output =>
    ticked stmt.text ++ " is not valid after " ++ ticked output.stmt.text
  | neverReturns => "procedure never returns"
  | afterReturn stmt => ticked stmt.text ++ " follows the return"
  | entryDirection expected => "entry procedure is not a " ++ expected.text ++ "er"

end LinkFault

inductive CodegenError where
  | builderState (misuse : Misuse)
  | duplicateProcedure (name : String)
  -- A compiler of one role was given no calling shape or several.
  | ambiguousShape (role : String) (shapes : Nat)
  | compilation (procedure record : String) (fault : LinkFault) (listing : String)
  | unsupported (path : String) (direction : Direction)
  | kind (mismatch : KindMismatch)
  -- More targets are nested than there are.
  | tooDeep
  deriving DecidableEq

namespace CodegenError

def code : CodegenError → String
  | builderState _ => "BuilderState"
  | duplicateProcedure _ => "DuplicateProcedure"
  | ambiguousShape .. => "AmbiguousClassContext"
  | compilation .. => "Compilation"
  | unsupported .. => "Unsupported"
  | kind _ => "Kind"
  | tooDeep => "TooDeep"

def message : CodegenError → String
  | builderState misuse => "procedure builder misuse: " ++ misuse.message
  | duplicateProcedure name => "procedure `" ++ name ++ "` is already defined"
  | ambiguousShape role shapes =>
    "field compiler `" ++ role ++ "` declares " ++ toString shapes ++
      " calling shapes, expected exactly one"
  | compilation procedure record fault listing =>
    "cannot materialize `" ++ procedure ++ "` (compiled for `" ++ record ++ "`): " ++
      fault.message ++ "\n" ++ listing
  | unsupported path direction =>
    "cannot " ++ direction.text ++ " `" ++ path ++ "`: no conversion rule and no hook registered"
  | kind mismatch => mismatch.message
  | tooDeep => "targets are nested without end"

end CodegenError
end TreeCodec
