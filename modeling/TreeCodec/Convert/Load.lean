import TreeCodec.Convert.Hook
import TreeCodec.Convert.Run
import TreeCodec.Convert.Scalar
import TreeCodec.Value.Build

/-!
How the kinds of types are loaded, given how their parts are.

A rule reads a tree that may be absent. An option is `none` for an absent tree and for null, a box
passes an absent tree on, and any other type needs a tree.
-/
namespace TreeCodec.Load

variable (S : Schema)

/-- A loader of one type. -/
abbrev Rule := Option Tree → Run Value

/-- The tree, which must not be absent. -/
def required : Option Tree → Run Tree
  | some t => pure t
  | none => Run.fault .missing

def mismatch {α : Type} (expected : Expected) (t : Tree) : Run α :=
  Run.fault (.typeMismatch expected t.kind)

def scalar (s : ScalarTy) : Rule := fun input => do
  let t ← required input
  match t.readScalar s.kind with
  | .ok value => Run.ofExcept (s.ofScalar value)
  | .error f => Run.fault f

/-- A type that keeps its tree. -/
def tree (ty : Ty) : Rule := fun input => do
  let t ← required input
  return .tree ty t

def hook (h : LoadHook) : Rule := fun input => do
  let t ← required input
  match h t with
  | .ok v => pure v
  | .error message => Run.fault (.hook message)

def optional (inner : Ty) (load : Rule) : Rule
  | none | some .null => pure (.none inner)
  | some t => do
    let v ← load (some t)
    Run.ofExcept (S.wrapSome inner v)

def boxed (inner : Ty) (load : Rule) : Rule := fun input => do
  let v ← load input
  Run.ofExcept (S.wrapBox inner v)

def list (ty item : Ty) (load : Rule) : Rule := fun input => do
  match ← required input with
  | .array items =>
    let vs ← Run.forEach (fun i t => (load (some t)).within (.index i)) 0 items
    Run.ofExcept (S.buildList ty item vs)
  | t => mismatch .sequence t

/-- The keys of an object are read as texts. -/
def map (ty : Ty) (kind : MapKind) (key value : Ty) (loadKey loadValue : Rule) : Rule :=
  fun input => do
    match ← required input with
    | .object entries =>
      let es ← Run.forEach (fun _ (name, t) => do
        let k ← (loadKey (some (.text name))).within (.key name)
        let v ← (loadValue (some t)).within (.key name)
        return (k, v)) 0 entries
      Run.ofExcept (S.buildMap ty kind key value es)
    | t => mismatch .mapping t

def rejected (ty : Ty) (index : Nat) (e : ConversionError) : LogRecord where
  level := .trace
  text := "variant #" ++ toString index ++ " of `" ++ S.path ty ++ "` rejected the value: " ++
    e.message

/-- Tries variants one after the other, the next one being number `index`. -/
def firstOf (ty : Ty) (variants : List Variant) (t : Tree) (index : Nat) : List Rule → Run Value
  | [] => Run.fault (.noVariant (S.path ty))
  | load :: loads =>
    let tried := load (some t)
    match tried.outcome with
    | .done v =>
      { Run.ofExcept (S.wrapVariant ty variants index v) with log := tried.log }
    | .failed e =>
      let rest := firstOf ty variants t (index + 1) loads
      { rest with log := tried.log ++ rejected S ty index e :: rest.log }
    | .unfinished => { Run.unfinished with log := tried.log }

/-- The first variant that accepts the tree. -/
def union (ty : Ty) (variants : List Variant) (loads : List Rule) : Rule := fun input => do
  let t ← required input
  firstOf S ty variants t 0 loads

/-- The entry of an object under a key. -/
def entry (key : String) : Option Tree → Run (Option Tree)
  | some (.object entries) => pure (Keyed.get? key entries)
  | some t => mismatch .mapping t
  | none => Run.fault .missing

/-- An element of an array. -/
def element (index : Nat) : Option Tree → Run (Option Tree)
  | some (.array items) => pure items[index]?
  | some t => mismatch .sequence t
  | none => Run.fault .missing

def checkMapping (input : Option Tree) : Run Unit := do
  match ← required input with
  | .object _ => pure ()
  | t => mismatch .mapping t

/-- An array has to have `min` to `len` elements. -/
def checkSequence (min len : Nat) (input : Option Tree) : Run Unit := do
  match ← required input with
  | .array items =>
    if items.length < min then Run.fault (.length min items.length)
    else if len < items.length then Run.fault (.length len items.length)
    else pure ()
  | t => mismatch .sequence t

/-- Refuses the first key of an object that is not known. -/
def checkKeys (known : List String) : Option Tree → Run Unit
  | some (.object entries) =>
    match (Keyed.keys entries).find? fun k => !known.contains k with
    | some k => (Run.fault (.unknownKey k)).within (.key k)
    | none => pure ()
  | _ => pure ()

end TreeCodec.Load
