import TreeCodec.Log
import TreeCodec.Procedure.Error

/-!
The procedure builder.

Procedures are begun inside one another; statements and local names go to the innermost one that is
not sealed yet. Sealed procedures keep the order in which they were sealed or merged, and are found
by name through an index. No two procedures of a builder, sealed or not, have one name.
-/
namespace TreeCodec

structure Builder where
  -- What the procedures were compiled for.
  record : String
  sealed : List Procedure := []
  -- Where the sealed procedures stand, by name.
  index : List (String × Nat) := []
  -- The procedures that are not sealed yet, innermost first.
  pending : List Procedure := []

/-- An operation of a builder. The builder that an operation leaves is known also when it fails. -/
abbrev BuilderM := EStateM CodegenError Builder

namespace Builder

def new (record : String) : Builder := { record }

def names (b : Builder) : List String := b.sealed.map Procedure.name

def hasPending (b : Builder) : Bool := !b.pending.isEmpty

/-- The position of a sealed procedure. -/
def place? (b : Builder) (name : String) : Option Nat := Keyed.get? name b.index

def find? (b : Builder) (name : String) : Option Procedure := do b.sealed[← b.place? name]?

def isSealed (b : Builder) (name : String) : Bool := (b.place? name).isSome

def isDefined (b : Builder) (name : String) : Bool :=
  b.isSealed name || b.pending.any (·.name = name)

def listing (b : Builder) : String := TreeCodec.listing b.sealed

/-- Puts a procedure behind those that are sealed. -/
def append (b : Builder) (p : Procedure) : Builder :=
  { b with sealed := b.sealed ++ [p], index := Keyed.put p.name b.sealed.length b.index }

def appendAll (b : Builder) (ps : List Procedure) : Builder := ps.foldl append b

def begin (name : String) (signature : Signature) (locals : Locals) : BuilderM Unit := do
  let b ← get
  if b.isDefined name then throw (.duplicateProcedure name)
  set { b with pending := { name, signature, locals } :: b.pending }

/-- Seals the innermost pending procedure, whichever it is. -/
def finish : BuilderM Unit := do
  let b ← get
  match b.pending with
  | [] => throw (.builderState .nothingToSeal)
  | p :: rest =>
    set { b with pending := rest }
    if b.isSealed p.name then throw (.duplicateProcedure p.name)
    set { b.append p with pending := rest }

/-- Seals at the end of a scope, where a failure is only logged. -/
def close : BuilderM (List LogRecord) := do
  try
    finish
    pure []
  catch e => pure [⟨.error, "ProcedureScope::drop -> " ++ e.message⟩]

def emit (stmt : Stmt) : BuilderM Unit := do
  let b ← get
  match b.pending with
  | [] => throw (.builderState (.emittedOutside stmt))
  | p :: rest => set { b with pending := { p with body := p.body ++ [stmt] } :: rest }

def bind (name : String) (binding : Binding) : BuilderM Unit := do
  let b ← get
  match b.pending with
  | [] => throw (.builderState (.boundOutside name))
  | p :: rest =>
    set { b with pending := { p with locals := Keyed.put name binding p.locals } :: rest }

/-- Takes over all procedures of another builder, or none of them. -/
def merge (other : Builder) : BuilderM Unit := do
  let b ← get
  if let p :: _ := other.pending then throw (.builderState (.mergeWhilePending p.name))
  if let some p := other.sealed.find? fun p => b.isDefined p.name then
    throw (.duplicateProcedure p.name)
  set (b.appendAll other.sealed)

section Index

variable (b : Builder) (p : Procedure) (ps : List Procedure)

@[simp] theorem sealed_append : (b.append p).sealed = b.sealed ++ [p] := rfl

theorem place?_append (name : String) :
    (b.append p).place? name = if name = p.name then some b.sealed.length else b.place? name :=
  Keyed.get?_put name p.name b.sealed.length b.index

@[simp] theorem sealed_appendAll : (b.appendAll ps).sealed = b.sealed ++ ps := by
  induction ps generalizing b with
  | nil => simp [appendAll]
  | cons p ps ih => simpa [appendAll] using ih (b.append p)

@[simp] theorem pending_appendAll : (b.appendAll ps).pending = b.pending := by
  induction ps generalizing b with
  | nil => rfl
  | cons p ps ih => exact ih (b.append p)

/-- Whatever the index tells of a name is right. -/
def Indexed : Prop :=
  ∀ name i, b.place? name = some i → ∃ p, b.sealed[i]? = some p ∧ p.name = name

variable {b}

theorem Indexed.append (h : b.Indexed) : (b.append p).Indexed := by
  intro name i hi
  rw [place?_append] at hi
  split at hi
  case isTrue hn =>
    cases hi
    exact ⟨p, by simp, hn.symm⟩
  case isFalse =>
    have ⟨q, hq, hname⟩ := h name i hi
    exact ⟨q, List.getElem?_append_left (List.getElem?_eq_some_iff.mp hq).choose ▸ hq, hname⟩

theorem Indexed.appendAll (h : b.Indexed) : (b.appendAll ps).Indexed := by
  induction ps generalizing b with
  | nil => exact h
  | cons p ps ih => exact ih (h.append p)

theorem Indexed.mem_names (h : b.Indexed) {name : String} (hs : b.isSealed name) :
    name ∈ b.names := by
  have ⟨i, hi⟩ := Option.isSome_iff_exists.mp hs
  have ⟨p, hp, hname⟩ := h name i hi
  exact List.mem_map.mpr ⟨p, List.mem_of_getElem? hp, hname⟩

end Index

end Builder
end TreeCodec
