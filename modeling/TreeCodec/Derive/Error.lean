import TreeCodec.Derive.Terminal

/-!
Why an item cannot be described.
-/
namespace TreeCodec

open Derive (Delimiter Terminal)

/-- What a place in an item or an attribute asks for. -/
inductive Wanted where
  | terminal (t : Terminal)
  | anyWord           -- a name that may be a keyword
  | settingName       -- the name of a setting
  | segment           -- a name after `::` in the path of an attribute
  | expression
  | delimited         -- a group of any delimiter
  | member            -- the name or the place of a field
  | labelled          -- what may follow a label
  | upperBound        -- the end of a range
  | newName           -- what may follow `as`
  deriving DecidableEq, Repr

namespace Wanted

def noun : Wanted → String
  | terminal t => t.noun
  | anyWord => "ident"
  | settingName => "nested attribute"
  | segment => "path segment after `::`"
  | expression => "an expression"
  | delimited => "delimiter"
  | member => "identifier or integer"
  | labelled => "loop or block expression"
  | upperBound => "range upper bound"
  | newName => "identifier or underscore"

/-- What was wanted, as one phrase. -/
def phrase : List Wanted → String
  | [] => ""
  | [a] => "expected " ++ a.noun
  | [a, b] => "expected " ++ a.noun ++ " or " ++ b.noun
  | ws => "expected one of: " ++ ", ".intercalate (ws.map noun)

end Wanted

/-- What cannot follow the type of a cast. -/
inductive CastFollower where
  | await | methodCall | fieldAccess | question | index | call
  deriving DecidableEq, Repr

def CastFollower.noun : CastFollower → String
  | await => "`.await`"
  | methodCall => "a method call"
  | fieldAccess => "a field access"
  | question => "`?`"
  | index => "indexing"
  | call => "a function call"

/-- A form that cannot stand where it stands, although it can be read. -/
inductive Misplaced where
  | objectWithoutTrait
  | boundWithoutTrait
  | capture
  | constBound
  | maybeConstBound
  | quantifiedMaybe
  | chainedComparison
  | castFollower (f : CastFollower)
  | attributeOnRange
  | labelledValue
  | halfOpenRange
  | suffixedIndex
  | negativeIndex
  | largeIndex
  | attributeAsValue
  | quantifiedWhere
  | secondReceiver
  | lateReceiver
  -- A statement that needs a `;` and has none.
  | unendedStatement
  deriving DecidableEq, Repr

namespace Misplaced

def message : Misplaced → String
  | objectWithoutTrait => "at least one trait is required for an object type"
  | boundWithoutTrait => "at least one trait must be specified"
  | capture => "`use<...>` precise capturing syntax is not allowed here"
  | constBound => "`const` is not allowed here"
  | maybeConstBound => "`[const]` is not allowed here"
  | quantifiedMaybe => "`for<...>` binder not allowed with `?` trait polarity modifier"
  | chainedComparison => "comparison operators cannot be chained"
  | castFollower f => "casts cannot be followed by " ++ f.noun
  | attributeOnRange => "attributes are not allowed on range expressions starting with `..`"
  | labelledValue => "parentheses required"
  | halfOpenRange => "range pattern is not allowed unparenthesized inside slice pattern"
  | suffixedIndex => "expected unsuffixed integer"
  | negativeIndex => "invalid digit found in string"
  | largeIndex => "number too large to fit in target type"
  | attributeAsValue => "unexpected attribute inside of attribute"
  | quantifiedWhere => "generic parameters on `where` clauses are reserved for future use"
  | secondReceiver => "unexpected second method receiver"
  | lateReceiver => "unexpected method receiver"
  | unendedStatement => "unexpected token, expected `;`"

end Misplaced

inductive DeriveError where
  -- The text of a path cannot be cut into tokens.
  | unreadable
  | expected (what : List Wanted) (atEnd : Bool)
  | missing (mark : String)
  | keyword (word : String)
  -- Tokens are left over, in a group if it has delimiters.
  | leftover (group : Option Delimiter)
  | misplaced (m : Misplaced)
  | suffix (word : String)
  | noArguments
  | noParentheses
  | literalAsName
  | markAsName
  | duplicate (setting : String)
  | unknownTypeSetting
  | unknownFieldSetting
  | rootedTypePath
  | lifetimeParameter
  | constantParameter
  | unnamedFields
  | positionalUnion
  | noVariants
  | variantSetting
  | variantPayload
  | overlay
  deriving DecidableEq, Repr

namespace DeriveError

def message : DeriveError → String
  | unreadable => "cannot parse string into token stream"
  | expected [] false => "unexpected token"
  | expected [] true => "unexpected end of input"
  | expected what false => Wanted.phrase what
  | expected what true => "unexpected end of input, " ++ Wanted.phrase what
  | missing mark => s!"expected `{mark}`"
  | keyword word => s!"expected identifier, found keyword `{word}`"
  | leftover none => "unexpected token"
  | leftover (some d) => s!"unexpected token, expected `{d.closing}`"
  | misplaced m => m.message
  | suffix word => s!"unexpected suffix `{word}` on string literal"
  | noArguments => "expected attribute arguments in parentheses: #[schema(...)]"
  | noParentheses => "expected parentheses: #[schema(...)]"
  | literalAsName => "unexpected literal in nested attribute, expected ident"
  | markAsName => "unexpected token in nested attribute, expected ident"
  | duplicate setting => s!"duplicate `{setting}`"
  | unknownTypeSetting => "unknown type attribute, expected `type_path` or `positional`"
  | unknownFieldSetting => "unknown field attribute, expected `rename` or `default`"
  | rootedTypePath => "`type_path` must not start with `::`"
  | lifetimeParameter => "`Schema` types must be 'static, lifetime parameters are not supported"
  | constantParameter => "const parameters are not supported by `Schema`"
  | unnamedFields => "`Schema` can only be derived for structs with named fields"
  | positionalUnion => "`positional` only applies to structs"
  | noVariants => "`Schema` enums need at least one variant"
  | variantSetting => "`Schema` enum variants take no attributes"
  | variantPayload => "`Schema` enum variants must wrap exactly one value, as in `Name(T)`"
  | overlay => "`Schema` can only be derived for structs and enums"

end DeriveError

end TreeCodec
