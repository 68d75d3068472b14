import TreeCodec.Codec
import TreeCodec.Compile.Context
import TreeCodec.Compile.Converter
import TreeCodec.Compile.Defaults
import TreeCodec.Compile.Descriptor
import TreeCodec.Compile.Engine
import TreeCodec.Compile.Guard
import TreeCodec.Compile.HookRule
import TreeCodec.Compile.Wrapper
import TreeCodec.Convert.Direct
import TreeCodec.Convert.Dump
import TreeCodec.Convert.Error
import TreeCodec.Convert.Hook
import TreeCodec.Convert.Load
import TreeCodec.Convert.Run
import TreeCodec.Convert.Scalar
import TreeCodec.Derive.Attribute
import TreeCodec.Derive.Code
import TreeCodec.Derive.Declaration
import TreeCodec.Derive.Error
import TreeCodec.Derive.Grammar
import TreeCodec.Derive.Grammar.Attribute
import TreeCodec.Derive.Grammar.Basic
import TreeCodec.Derive.Grammar.Bound
import TreeCodec.Derive.Grammar.Expression
import TreeCodec.Derive.Grammar.Function
import TreeCodec.Derive.Grammar.Item
import TreeCodec.Derive.Grammar.Path
import TreeCodec.Derive.Grammar.Pattern
import TreeCodec.Derive.Grammar.Record
import TreeCodec.Derive.Grammar.Statement
import TreeCodec.Derive.Grammar.Type
import TreeCodec.Derive.Item
import TreeCodec.Derive.Literal
import TreeCodec.Derive.Path
import TreeCodec.Derive.Reader
import TreeCodec.Derive.Scan
import TreeCodec.Derive.Setting
import TreeCodec.Derive.Terminal
import TreeCodec.Derive.Token
import TreeCodec.Format.Item
import TreeCodec.Format.Procedure
import TreeCodec.Format.Report
import TreeCodec.Format.Schema
import TreeCodec.Log
import TreeCodec.Manifest
import TreeCodec.Manifest.Outline
import TreeCodec.Number.Double
import TreeCodec.Number.Layout
import TreeCodec.Number.Numeral
import TreeCodec.Number.Rounding
import TreeCodec.Number.Shortest
import TreeCodec.Procedure.Builder
import TreeCodec.Procedure.Error
import TreeCodec.Procedure.Linked
import TreeCodec.Procedure.Linker
import TreeCodec.Procedure.Listing
import TreeCodec.Procedure.Meaning
import TreeCodec.Procedure.Syntax
import TreeCodec.Procedure.Unit
import TreeCodec.Procedure.WellFormed
import TreeCodec.Proofs.Approximation
import TreeCodec.Proofs.BodyParts
import TreeCodec.Proofs.BuilderHistory
import TreeCodec.Proofs.ByteFold
import TreeCodec.Proofs.ByteOrder
import TreeCodec.Proofs.CellHistory
import TreeCodec.Proofs.ClosedUnit
import TreeCodec.Proofs.CodecHistory
import TreeCodec.Proofs.Collected
import TreeCodec.Proofs.Compilation
import TreeCodec.Proofs.Compile
import TreeCodec.Proofs.CompileDepth
import TreeCodec.Proofs.CompileFailure
import TreeCodec.Proofs.Construction
import TreeCodec.Proofs.Culprit
import TreeCodec.Proofs.Decimal
import TreeCodec.Proofs.DecimalNumeral
import TreeCodec.Proofs.DirectDepth
import TreeCodec.Proofs.DirectRoundTrip
import TreeCodec.Proofs.DoubleRounding
import TreeCodec.Proofs.DoubleValue
import TreeCodec.Proofs.DumpAgreement
import TreeCodec.Proofs.DumpCalls
import TreeCodec.Proofs.DumpErrorPath
import TreeCodec.Proofs.DumpMeaning
import TreeCodec.Proofs.DumpOutcome
import TreeCodec.Proofs.DumpUnit
import TreeCodec.Proofs.Dumped
import TreeCodec.Proofs.DumpedEntries
import TreeCodec.Proofs.DumpedFields
import TreeCodec.Proofs.EndsAlike
import TreeCodec.Proofs.Entries
import TreeCodec.Proofs.EntryOrder
import TreeCodec.Proofs.ErrorPath
import TreeCodec.Proofs.FloatLoad
import TreeCodec.Proofs.Form
import TreeCodec.Proofs.FreshName
import TreeCodec.Proofs.Generated
import TreeCodec.Proofs.GivenBack
import TreeCodec.Proofs.Gives
import TreeCodec.Proofs.GridRounding
import TreeCodec.Proofs.Growth
import TreeCodec.Proofs.HelperNames
import TreeCodec.Proofs.IdentifierRuns
import TreeCodec.Proofs.IntegerLoad
import TreeCodec.Proofs.IntegerText
import TreeCodec.Proofs.KeyOrder
import TreeCodec.Proofs.LinkAccepts
import TreeCodec.Proofs.LinkDump
import TreeCodec.Proofs.LinkExact
import TreeCodec.Proofs.LinkLoad
import TreeCodec.Proofs.LinkMeaning
import TreeCodec.Proofs.LinkedBody
import TreeCodec.Proofs.Lists
import TreeCodec.Proofs.LoadAgreement
import TreeCodec.Proofs.LoadCalls
import TreeCodec.Proofs.LoadMeaning
import TreeCodec.Proofs.LoadTermination
import TreeCodec.Proofs.LoadUnit
import TreeCodec.Proofs.LoadedType
import TreeCodec.Proofs.LoaderParts
import TreeCodec.Proofs.Monotone
import TreeCodec.Proofs.Nesting
import TreeCodec.Proofs.NullFields
import TreeCodec.Proofs.NullsKept
import TreeCodec.Proofs.Omission
import TreeCodec.Proofs.OmitNull
import TreeCodec.Proofs.OperandRule
import TreeCodec.Proofs.Orderless
import TreeCodec.Proofs.OwnHooks
import TreeCodec.Proofs.PositionalLength
import TreeCodec.Proofs.Pruned
import TreeCodec.Proofs.PureRun
import TreeCodec.Proofs.RecordTrip
import TreeCodec.Proofs.Refusal
import TreeCodec.Proofs.Reordered
import TreeCodec.Proofs.ReservedNames
import TreeCodec.Proofs.Resolution
import TreeCodec.Proofs.RoundTrip
import TreeCodec.Proofs.RunFailure
import TreeCodec.Proofs.ScalarTrip
import TreeCodec.Proofs.Sequential
import TreeCodec.Proofs.SettingVocabulary
import TreeCodec.Proofs.Shape
import TreeCodec.Proofs.SideBySide
import TreeCodec.Proofs.Step
import TreeCodec.Proofs.Stricter
import TreeCodec.Proofs.SupportedItem
import TreeCodec.Proofs.Target
import TreeCodec.Proofs.TargetSlot
import TreeCodec.Proofs.Trail
import TreeCodec.Proofs.Traversal
import TreeCodec.Proofs.Trip
import TreeCodec.Proofs.Typing
import TreeCodec.Proofs.UnionChoice
import TreeCodec.Proofs.UnknownKeys
import TreeCodec.Proofs.UnorderedMap
import TreeCodec.Proofs.Unwinding
import TreeCodec.Proofs.ValueParts
import TreeCodec.Proofs.Visits
import TreeCodec.Proofs.Waiting
import TreeCodec.Proofs.Walk
import TreeCodec.Proofs.Wrapped
import TreeCodec.Proofs.WrittenSettings
import TreeCodec.Schema.Basic
import TreeCodec.Schema.Description
import TreeCodec.Schema.Error
import TreeCodec.Schema.Type
import TreeCodec.Store.Cell
import TreeCodec.Store.Hash
import TreeCodec.Store.Keyed
import TreeCodec.Store.TypeMap
import TreeCodec.Text.Blank
import TreeCodec.Text.Hex
import TreeCodec.Text.Identifier
import TreeCodec.Text.Quoted
import TreeCodec.Text.Template
import TreeCodec.Text.Visible
import TreeCodec.Text.WordCharacter
import TreeCodec.Tree.Access
import TreeCodec.Tree.Basic
import TreeCodec.Tree.Reader
import TreeCodec.Tree.Writer
import TreeCodec.Value.Basic
import TreeCodec.Value.Build
import TreeCodec.Value.Key
import TreeCodec.Value.Order
import TreeCodec.Value.Scalar
import TreeCodec.Value.Shown
