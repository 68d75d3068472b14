import TreeCodec.Convert.Dump
import TreeCodec.Convert.Load

/-!
Direct conversion: every type is converted by the rule of its kind, given how the types in it are
converted. Nothing is compiled, and nothing has a name.

This says what converters mean. A hook stands in for the rule of its type wherever the type occurs.
A type may contain itself, so a run nests a given number of declared types at most.
-/
namespace TreeCodec.Direct

variable (S : Schema) (hooks : Hooks) (options : Options)

/-! ## Loading -/

/-- The rule of a type, unless it has a hook. -/
def loadHooked (t : Ty) (rule : Load.Rule) : Load.Rule :=
  match hooks.load? t with
  | some h => Load.hook h
  | none => rule

/-- A part that was found in the input, or its default if it is absent. -/
def loadPart (rule : Load.Rule) (default : Option Value) (found : Run (Option Tree)) :
    Run Value := do
  match ← found, default with
  | none, some v => pure v
  | t, _ => rule t

def loadTuple (t : Ty) (rules : List Load.Rule) : Load.Rule := fun input => do
  Load.checkSequence rules.length rules.length input
  let vs ← Run.forEach (fun i rule =>
    (loadPart rule none (Load.element i input)).within (.index i)) 0 rules
  Run.ofExcept (S.construct t vs)

/-- A record from an object with the fields under their keys. -/
def loadMapping (t : Ty) (fields : List (Field × Load.Rule)) : Load.Rule := fun input => do
  Load.checkMapping input
  if options.denyUnknownKeys then Load.checkKeys (fields.map (·.1.key)) input
  let vs ← Run.forEach (fun _ (f, rule) =>
    (loadPart rule f.default (Load.entry f.key input)).within (.key f.key)) 0 fields
  Run.ofExcept (S.construct t vs)

/-- A positional record from an array, which may lack fields with defaults at its end. -/
def loadSequence (t : Ty) (fields : List (Field × Load.Rule)) : Load.Rule := fun input => do
  Load.checkSequence (requiredLength (fields.map (·.1))) fields.length input
  let vs ← Run.forEach (fun i (f, rule) =>
    (loadPart rule f.default (Load.element i input)).within (.index i)) 0 fields
  Run.ofExcept (S.construct t vs)

mutual

/-- How a type is loaded, given how declared types are. -/
def loadType (declared : String → Load.Rule) : Ty → Load.Rule
  | .scalar s => loadHooked hooks (.scalar s) (Load.scalar s)
  | .dynamic => loadHooked hooks .dynamic (Load.tree .dynamic)
  | .optional t => loadHooked hooks (.optional t) (Load.optional S t (loadType declared t))
  | .boxed t => loadHooked hooks (.boxed t) (Load.boxed S t (loadType declared t))
  | .list k t => loadHooked hooks (.list k t) (Load.list S (.list k t) t (loadType declared t))
  | .map k s t =>
    loadHooked hooks (.map k s t)
      (Load.map S (.map k s t) k s t (loadType declared s) (loadType declared t))
  | .tuple ts => loadHooked hooks (.tuple ts) (loadTuple S (.tuple ts) (loadTypes declared ts))
  | .declared id => loadHooked hooks (.declared id) (declared id)

def loadTypes (declared : String → Load.Rule) : List Ty → List Load.Rule
  | [] => []
  | t :: ts => loadType declared t :: loadTypes declared ts

end

/-- How a declared type is loaded, given how those within it are. A foreign type has no rule. -/
def loadDeclared (declared : String → Load.Rule) (id : String) : Load.Rule :=
  let t := Ty.declared id
  match S.shape t with
  | .record fields positional =>
    let fields := fields.map fun f => (f, loadType S hooks declared f.ty)
    if positional then loadSequence S t fields else loadMapping S options t fields
  | .union variants =>
    Load.union S t variants (variants.map fun v => loadType S hooks declared v.ty)
  | .dynamic => Load.tree t
  | _ => fun _ => Run.unfinished

/-- Loads declared types, at most `depth` of them inside one another. -/
def loadWithin : Nat → String → Load.Rule
  | 0, _ => fun _ => Run.unfinished
  | depth + 1, id => loadDeclared S hooks options (loadWithin depth) id

/-- Loads a tree that may be absent as a value of a type. -/
def load (depth : Nat) (t : Ty) : Load.Rule := loadType S hooks (loadWithin S hooks options depth) t

/-! ## Dumping -/

def dumpHooked (t : Ty) (rule : Dump.Rule) : Dump.Rule :=
  match hooks.dump? t with
  | some h => Dump.hook h
  | none => rule

def dumpPart (rule : Dump.Rule) (found : Except SchemaError (Option Value)) : Run Tree := do
  let v ← Dump.part found
  rule v

def dumpTuple (t : Ty) (rules : List Dump.Rule) : Dump.Rule := fun v => do
  let trees ← Run.forEach (fun i rule =>
    (dumpPart rule (S.getElement t i v)).within (.index i)) 0 rules
  return .array trees

/-- Puts the fields of a record from number `index` on under their keys. A field that is null may be
left out. -/
def dumpMapping (t : Ty) (v : Value) (index : Nat) (entries : List (String × Tree)) :
    List (Field × Dump.Rule) → Run Tree
  | [] => pure (.object entries)
  | (f, rule) :: rest => do
    let tree ← (dumpPart rule (S.getField t index v)).within (.key f.name)
    dumpMapping t v (index + 1)
      (if options.omitNull && tree = .null then entries else Keyed.put f.key tree entries) rest

def dumpSequence (t : Ty) (fields : List (Field × Dump.Rule)) : Dump.Rule := fun v => do
  let trees ← Run.forEach (fun i (f, rule) =>
    (dumpPart rule (S.getField t i v)).within (.key f.name)) 0 fields
  return .array trees

mutual

/-- How a type is dumped, given how declared types are. -/
def dumpType (declared : String → Dump.Rule) : Ty → Dump.Rule
  | .scalar s => dumpHooked hooks (.scalar s) (Dump.scalar s)
  | .dynamic => dumpHooked hooks .dynamic (Dump.tree S .dynamic)
  | .optional t =>
    dumpHooked hooks (.optional t) (Dump.optional S (.optional t) (dumpType declared t))
  | .boxed t => dumpHooked hooks (.boxed t) (Dump.boxed S (.boxed t) (dumpType declared t))
  | .list k t => dumpHooked hooks (.list k t) (Dump.list S (.list k t) (dumpType declared t))
  | .map k s t =>
    dumpHooked hooks (.map k s t)
      (Dump.map S (.map k s t) k (dumpType declared s) (dumpType declared t))
  | .tuple ts => dumpHooked hooks (.tuple ts) (dumpTuple S (.tuple ts) (dumpTypes declared ts))
  | .declared id => dumpHooked hooks (.declared id) (declared id)

def dumpTypes (declared : String → Dump.Rule) : List Ty → List Dump.Rule
  | [] => []
  | t :: ts => dumpType declared t :: dumpTypes declared ts

end

/-- How a declared type is dumped, given how those within it are. -/
def dumpDeclared (declared : String → Dump.Rule) (id : String) : Dump.Rule :=
  let t := Ty.declared id
  match S.shape t with
  | .record fields positional =>
    let fields := fields.map fun f => (f, dumpType S hooks declared f.ty)
    if positional then dumpSequence S t fields else fun v => dumpMapping S options t v 0 [] fields
  | .union variants => Dump.union S t (variants.map fun v => dumpType S hooks declared v.ty)
  | .dynamic => Dump.tree S t
  | _ => fun _ => Run.unfinished

/-- Dumps declared types, at most `depth` of them inside one another. -/
def dumpWithin : Nat → String → Dump.Rule
  | 0, _ => fun _ => Run.unfinished
  | depth + 1, id => dumpDeclared S hooks options (dumpWithin depth) id

/-- Dumps a value of a type. -/
def dump (depth : Nat) (t : Ty) : Dump.Rule := dumpType S hooks (dumpWithin S hooks options depth) t

end TreeCodec.Direct
