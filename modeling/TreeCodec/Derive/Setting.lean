import TreeCodec.Derive.Attribute
import TreeCodec.Derive.Path

/-!
The settings in `#[schema(...)]` attributes.

An attribute holds settings separated by commas. They are read from left to right and added one by
one to the settings that are there, so the first mistake is the one reported. The settings of
several attributes add up.
-/
namespace TreeCodec.Derive

namespace Setting

/-- What follows the `::` and names after the first name of a setting. -/
def afterMoreNames : List Token → Except DeriveError (List Token)
  | .mark ':' true :: .mark ':' _ :: .word _ :: rest => afterMoreNames rest
  | .mark ':' true :: .mark ':' _ :: rest => .error (.expected [.anyWord] rest.isEmpty)
  | rest => .ok rest

theorem afterMoreNames_length {ts rest : List Token} (h : afterMoreNames ts = .ok rest) :
    rest.length ≤ ts.length := by
  fun_induction afterMoreNames ts <;> grind

/-- Whether a literal comes next. A number may have a sign. -/
def isLiteral (ts : List Token) : Bool := Terminal.literal.starts ts

/-- The name of a setting, or none if it has a `::`, and what follows it. -/
def readName (ts : List Token) : Except DeriveError (Option String × List Token) :=
  match ts with
  | .word name :: rest =>
    (afterMoreNames rest).map fun after =>
      (if after.length = rest.length then some name else none, after)
  | .mark ':' true :: .mark ':' _ :: .word _ :: rest =>
    (afterMoreNames rest).map fun after => (none, after)
  | .mark ':' true :: .mark ':' _ :: rest =>
    .error (if rest.isEmpty then .expected [.settingName] true
      else if isLiteral rest then .literalAsName else .markAsName)
  | [] => .error (.expected [.settingName] true)
  | ts => .error (if isLiteral ts then .literalAsName else .markAsName)

theorem readName_length {ts rest : List Token} {name : Option String}
    (h : readName ts = .ok (name, rest)) : rest.length < ts.length := by
  have map {ε α β : Type} {f : α → β} {x : Except ε α} {y : β} (h : x.map f = .ok y) :
      ∃ a, x = .ok a ∧ f a = y := by
    cases x <;> simp_all [Except.map]
  revert h
  fun_cases readName ts <;> intro h
  case case1 name rest =>
    obtain ⟨after, ha, he⟩ := map h
    have := afterMoreNames_length ha
    grind
  case case2 rest =>
    obtain ⟨after, ha, he⟩ := map h
    have := afterMoreNames_length ha
    grind
  all_goals simp at h

/-- Reads settings. `add` takes what is set so far, the name of a setting and the tokens after it,
and says how many of those tokens belong to the setting. -/
def readAll {σ : Type} (add : σ → Option String → List Token → Except DeriveError (σ × Nat))
    (s : σ) (ts : List Token) : Except DeriveError σ :=
  match h : readName ts with
  | .error e => .error e
  | .ok (name, rest) =>
    match add s name rest with
    | .error e => .error e
    | .ok (s, taken) =>
      match h' : rest.drop taken with
      | [] => .ok s
      | .mark ',' _ :: [] => .ok s
      | .mark ',' _ :: t :: more =>
        have : (t :: more).length < ts.length := by
          have := readName_length h
          have := congrArg List.length h'
          simp only [List.length_drop, List.length_cons] at this ⊢
          omega
        readAll add s (t :: more)
      | _ => .error (.missing ",")
termination_by ts.length

/-- Adds the settings of the attributes about the schema to what is set so far. -/
def ofAttributes {σ : Type} (add : σ → Option String → List Token → Except DeriveError (σ × Nat))
    (s : σ) (attributes : List Attribute) : Except DeriveError σ :=
  (attributes.filter Attribute.isSchema).foldlM (fun s a => do
    let ts ← Attribute.arguments a.body
    if ts.isEmpty then .ok s else readAll add s ts) s

/-- A literal that is a string, with the text it stands for. -/
structure Text where
  literal : Literal
  value : String
  deriving DecidableEq, Repr

/-- The path that a text stands for. No word may be attached to it. -/
def Text.path (t : Text) : Except DeriveError Path := do
  let path ← Path.ofText t.value
  if t.literal.suffix = "" then return path else throw (.suffix t.literal.suffix)

/-- The text after the name of a setting that needs one. -/
def assigned : List Token → Except DeriveError Text
  | .mark '=' _ :: .literal l :: _ =>
    match l.kind with
    | .text value => .ok ⟨l, value⟩
    | _ => .error (.expected [.terminal .text] false)
  | .mark '=' _ :: rest => .error (.expected [.terminal .text] rest.isEmpty)
  | _ => .error (.missing "=")

end Setting

/-- The settings of a type. -/
structure TypeSettings where
  -- The path to give for the type, in place of the one of its module.
  typePath : Option Path := none
  -- Whether a record is written as a sequence.
  positional : Bool := false

namespace TypeSettings

def add (s : TypeSettings) (name : Option String) (rest : List Token) :
    Except DeriveError (TypeSettings × Nat) :=
  match name with
  | some "type_path" => do
    if s.typePath.isSome then throw (.duplicate "type_path")
    let text ← Setting.assigned rest
    let path ← text.path
    if path.rooted then throw .rootedTypePath
    return ({ s with typePath := some path }, 2)
  | some "positional" => do
    if s.positional then throw (.duplicate "positional")
    return ({ s with positional := true }, 0)
  | _ => throw .unknownTypeSetting

def ofAttributes : List Attribute → Except DeriveError TypeSettings := Setting.ofAttributes add {}

end TypeSettings

/-- How a field is filled if its key is absent. -/
inductive FieldDefault where
  -- With the default of its type.
  | standard
  -- With what a function returns.
  | call (function : Path)

/-- The settings of a field. -/
structure FieldSettings where
  rename : Option Setting.Text := none
  default : Option FieldDefault := none

namespace FieldSettings

def add (s : FieldSettings) (name : Option String) (rest : List Token) :
    Except DeriveError (FieldSettings × Nat) :=
  match name with
  | some "rename" => do
    if s.rename.isSome then throw (.duplicate "rename")
    let text ← Setting.assigned rest
    return ({ s with rename := some text }, 2)
  | some "default" => do
    if s.default.isSome then throw (.duplicate "default")
    match rest with
    | .mark '=' _ :: _ =>
      let text ← Setting.assigned rest
      let path ← text.path
      return ({ s with default := some (.call path) }, 2)
    | _ => return ({ s with default := some .standard }, 0)
  | _ => throw .unknownFieldSetting

def ofAttributes : List Attribute → Except DeriveError FieldSettings := Setting.ofAttributes add {}

end FieldSettings

end TreeCodec.Derive
