import TreeCodec.Compile.Descriptor
import TreeCodec.Log

/-!
The recursion guard: the targets that are compiled, or are being compiled, and the names of their
procedures.

A name is reserved before the body of its procedure is compiled, so a target that is met again
within itself has a procedure to call. Nothing is ever removed.
-/
namespace TreeCodec

/-- What tells one target from another. -/
inductive GuardKey where
  -- The type itself.
  | origin (t : Ty)
  -- The types of the arguments, for values declared with a type parameter.
  | arguments (ts : List Ty)
  deriving DecidableEq

namespace GuardKey

def ofOrigin (d : Descriptor) : GuardKey := .origin d.ty

def ofArguments (S : Schema) (d : Descriptor) : GuardKey := .arguments (d.argumentTypes S)

end GuardKey

/-- A name with a number behind it. -/
def numbered (name : String) (k : Nat) : String := name ++ "_" ++ toString k

/-- The first name among `k` and the `n` numbers after it that is not taken. -/
def firstFree (taken : List String) (name : String) (k : Nat) : Nat → String
  | 0 => numbered name k
  | n + 1 =>
    if taken.contains (numbered name k) then firstFree taken name (k + 1) n else numbered name k

/-- The name itself if it is free, or else the name with the least number from 2 on that is free.
Among one more candidates than there are taken names there is a free one. -/
def freshName (taken : List String) (name : String) : String :=
  if taken.contains name then firstFree taken name 2 taken.length else name

structure Guard where
  entries : List (GuardKey × String) := []
  names : List String := []

namespace Guard

def empty : Guard := {}

def lookup (g : Guard) (key : GuardKey) : Option String := Keyed.get? key g.entries

def contains (g : Guard) (key : GuardKey) : Bool := (g.lookup key).isSome

def size (g : Guard) : Nat := g.entries.length

/-- Reserves a name for a key and gives the name that was free. -/
def reserve (g : Guard) (key : GuardKey) (wanted : String) : String × Guard :=
  let name := freshName g.names wanted
  (name, { entries := Keyed.put key name g.entries, names := name :: g.names })

def lookupLog (found : Option String) : List LogRecord :=
  match found with
  | some name => [⟨.trace, "recursion guard hit -> `" ++ name ++ "`"⟩]
  | none => []

def reserveLog (wanted name : String) : List LogRecord :=
  let renamed : List LogRecord :=
    if name = wanted then []
    else [⟨.warn, "procedure name `" ++ wanted ++ "` is taken, using `" ++ name ++ "`"⟩]
  renamed ++ [⟨.trace, "recursion guard reserve -> `" ++ name ++ "`"⟩]

end Guard
end TreeCodec
