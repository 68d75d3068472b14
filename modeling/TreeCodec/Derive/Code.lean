import TreeCodec.Derive.Declaration

/-!
The code that describes a type.

For each declaration there are three implementations: of the trait with the path of the type, of the
trait with its description, and of the trait of records or of unions. Nothing in the code depends on
the names in scope where it stands: every path starts at a root.
-/
namespace TreeCodec.Derive

abbrev Code := List Token

namespace Code

def word (name : String) : Code := [.word name]

def string (s : String) : Code := [.literal (.ofText s)]

def index (n : Nat) : Code := [.literal ⟨toString n ++ "usize", .integer n, "usize"⟩]

def parens (c : Code) : Code := [.group .parenthesis c]

def brackets (c : Code) : Code := [.group .bracket c]

def braces (c : Code) : Code := [.group .brace c]

def comma : Code := [.lone ',']

def angles (c : Code) : Code := [.lone '<'] ++ c ++ [.lone '>']

/-- With a comma between every two. -/
def separated (cs : List Code) : Code := comma.intercalate cs

/-- With a comma after each. -/
def terminated (cs : List Code) : Code := cs.flatMap (· ++ comma)

/-- A path from the root. -/
def rooted (names : List String) : Code := names.flatMap fun name => Token.scan "::" ++ word name

def option : Code := Token.scan "::core::option::Option"

def result : Code := Token.scan "::core::result::Result"

def box : Code := Token.scan "::std::boxed::Box"

/-- A trait object of any type. -/
def anything : Code := Token.scan "dyn ::core::any::Any"

def defaultTrait : Code := Token.scan "::core::default::Default"

/-- `<type as trait>`. -/
def cast (type trait : Code) : Code := angles (type ++ word "as" ++ trait)

/-- `path::<argument>` -/
def applied (path argument : Code) : Code := path ++ Token.scan "::" ++ angles argument

/-- A function of a trait. -/
def function (signature body : Code) : Code := word "fn" ++ signature ++ braces body

/-- A function without much in it. -/
def smallFunction (signature body : Code) : Code :=
  Token.scan "#[inline]" ++ function signature body

/-- An arm of a `match`. -/
def arm (pattern body : Code) : Code := pattern ++ Token.scan "=>" ++ body

end Code

open Code
open Token (scan plainName)

namespace Declaration

variable (home : List String) (d : Declaration)

-- `home` is the path under which the generated code finds the library of schemas.

def item (name : String) : Code := rooted home ++ scan "::" ++ word name

/-- Parameters between `<` and `>`. -/
def listed (written : TypeParameter → Code) : Code :=
  if d.parameters.isEmpty then []
  else angles (separated (d.parameters.map written) ++ if d.closed then comma else [])

/-- The parameters as they are introduced, without their defaults. -/
def introduced : Code := d.listed fun p =>
  p.attributes ++ word p.name ++ if p.bounds.isEmpty then [] else scan ":" ++ p.bounds

/-- The parameters as arguments of the type. -/
def arguments : Code := d.listed fun p => word p.name

def whereClause (extra : List Code) : Code :=
  if d.predicates.isEmpty ∧ extra.isEmpty then []
  else word "where" ++ terminated d.predicates ++ terminated extra

/-- Tokens of the path of the module, as an expression. -/
def modulePath : Code :=
  match d.settings.typePath with
  | some path => string (Path.joined path.module)
  | none => scan "::core::module_path!()"

/-- What each type parameter and the type of each field with a standard default has to implement. -/
def wherePredicates : List Code :=
  let parameters := d.parameters.map fun p => word p.name ++ scan ":" ++ item home "Typed"
  let defaults :=
    match d.shape with
    | .record members => members.filterMap fun m =>
      match m.settings.default with
      | some .standard => some (m.type ++ scan ":" ++ defaultTrait)
      | _ => none
    | .union _ => []
  parameters ++ if d.isGeneric then defaults else []

def implementation (trait : String) (extra : List Code) (body : Code) : Code :=
  word "impl" ++ d.introduced ++ item home trait ++ word "for" ++ word d.name ++ d.arguments ++
    d.whereClause extra ++ braces body

/-- A cell that is filled once, with the method that fills it. -/
def cell (type : Code) (fill : Code) : Code :=
  scan "static CELL:" ++ type ++ scan "=" ++ type ++ scan "::new(); CELL." ++ fill

def cellPerType : Code := applied (word "get_or_insert") (word "Self")

/-- The path or name of a generic type: its own and those of its arguments between `<` and `>`. -/
def joinedName (head : Code) (part : String) : Code :=
  let parts := d.parameters.map fun p =>
    cast (word p.name) (item home "TypePath") ++ scan "::" ++ word part ++ parens []
  let parts := parts.intersperse (string ", ")
  let text := item home "concat" ++
    parens (scan "&" ++ brackets (separated ([head, string "<"] ++ parts ++ [string ">"])))
  cell (item home "GenericTypePathCell") (cellPerType ++ parens (scan "||" ++ braces text))

def implementTypePath : Code :=
  let static := scan "&'static str"
  let own :=
    match d.settings.typePath with
    | some path => string (Path.joined path.names)
    | none => scan "::core::concat!" ++
        parens (separated [scan "::core::module_path!()", string "::", string d.ident])
  let place :=
    match d.settings.typePath with
    | some path =>
      if 1 < path.names.length then option ++ scan "::Some" ++ parens d.modulePath
      else option ++ scan "::None"
    | none => option ++ scan "::Some" ++ parens d.modulePath
  let named (part : String) (head : Code) : Code :=
    let signature := word part ++ scan "() ->" ++ static
    if d.isGeneric then function signature (d.joinedName home head part)
    else smallFunction signature head
  d.implementation home "TypePath"
    (d.parameters.map fun p => word p.name ++ scan ":" ++ item home "TypePath")
    (named "type_path" own ++ named "type_name" (string d.ident) ++
      smallFunction (scan "type_ident() ->" ++ static) (string d.ident) ++
      smallFunction (scan "module_path() ->" ++ option ++ angles static) place)

/-- The description of a field. -/
def describeField (m : Member) : Code :=
  let filled (value : Code) : Code :=
    scan ".with_default" ++
      parens (scan "|| ->" ++ box ++ angles anything ++ braces value)
  applied (item home "NamedField" ++ scan "::new") m.type ++ parens (string (plainName m.name)) ++
    (match m.settings.rename with
      | some text => scan ".with_key" ++ parens [.literal text.literal]
      | none => []) ++
    (match m.parameter with
      | some n => scan ".with_generic_param" ++ parens (index n)
      | none => []) ++
    match m.settings.default with
      | some .standard =>
        filled (box ++ scan "::new" ++ parens (cast m.type defaultTrait ++ scan "::default()"))
      | some (.call path) =>
        filled (applied box m.type ++ scan "::new" ++ parens (path.tokens ++ parens []))
      | none => []

/-- The description of the type. -/
def describe : Code :=
  let list (entries : List Code) : Code := parens (scan "&" ++ brackets (separated entries))
  let generics :=
    if d.isGeneric then
      scan ".with_generics" ++ parens (item home "Generics" ++ scan "::from_params" ++
        list (d.parameters.map fun p =>
          applied (item home "TypeParamInfo" ++ scan "::new") (word p.name) ++
            parens (string p.name)))
    else []
  let described (kind : String) (description : Code) : Code :=
    item home "TypeInfo" ++ scan "::" ++ word kind ++
      parens (applied (item home (kind ++ "Info") ++ scan "::new") (word "Self") ++ description)
  match d.shape with
  | .record members =>
    described "Record" (list (members.map (describeField home)) ++ generics ++
      if d.settings.positional then scan ".with_positional()" else [])
  | .union alternatives =>
    described "Union" (list (alternatives.map fun a =>
      applied (item home "UnionVariant" ++ scan "::new") a.type ++
        parens (string (plainName a.name))) ++ generics)

def implementTyped : Code :=
  let filled (type : String) (fill : Code) : Code :=
    cell (item home type) (fill ++ parens (scan "||" ++ d.describe home))
  d.implementation home "Typed" (d.wherePredicates home)
    (function (scan "type_info() -> &'static" ++ item home "TypeInfo")
      (if d.isGeneric then filled "GenericTypeInfoCell" cellPerType
      else filled "NonGenericTypeInfoCell" (word "get_or_init")))

/-- Takes the next value of a type. -/
def taken (source : String) (type : Code) : Code :=
  applied (word source ++ scan ".take") type ++ scan "()?"

def implementRecord (members : List Member) : Code :=
  let takes := members.map fun m => word m.name ++ scan ":" ++ taken "fields" m.type
  let fields := members.mapIdx fun n m =>
    arm (index n) (option ++ scan "::Some" ++
      parens (scan "&self." ++ word m.name ++ scan "as &" ++ anything))
  d.implementation home "Record" (d.wherePredicates home)
    (scan "#[allow(unused_variables)]" ++
      function
        (word "from_fields" ++ parens (scan "fields: &mut" ++ item home "FieldValues") ++
          scan "->" ++ result ++ angles (scan "Self," ++ item home "SchemaError"))
        (result ++ scan "::Ok" ++ parens (word "Self" ++ braces (terminated takes))) ++
      function
        (scan "field_at(&self, index: usize) ->" ++ option ++ angles (scan "&" ++ anything))
        (scan "match index" ++
          braces (terminated fields ++ terminated [arm (word "_") (option ++ scan "::None")])))

def implementUnion (alternatives : List Alternative) : Code :=
  let own (a : Alternative) : Code := scan "Self::" ++ word a.name
  let wraps := alternatives.mapIdx fun n a =>
    arm (index n) (result ++ scan "::Ok" ++ parens (own a ++ parens (taken "variant" a.type)))
  let actives := alternatives.mapIdx fun n a =>
    arm (own a ++ scan "(value)") (parens (index n ++ scan ", value as &" ++ anything))
  d.implementation home "Union" (d.wherePredicates home)
    (function
      (word "from_variant" ++ parens (scan "variant:" ++ item home "VariantValue") ++
        scan "->" ++ result ++ angles (scan "Self," ++ item home "SchemaError"))
      (scan "match variant.index()" ++
        braces (terminated wraps ++
          terminated [arm (word "_") (result ++ scan "::Err(variant.unknown())")])) ++
    function
      (scan "variant(&self) ->" ++ parens (scan "usize, &" ++ anything))
      (scan "match self" ++ braces (terminated actives)))

/-- All the code for a declaration. -/
def code : Code :=
  d.implementTypePath home ++ d.implementTyped home ++
    match d.shape with
    | .record members => d.implementRecord home members
    | .union alternatives => d.implementUnion home alternatives

end Declaration

end TreeCodec.Derive
