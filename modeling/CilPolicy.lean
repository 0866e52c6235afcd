import CilPolicy.Access.Codec
import CilPolicy.Access.Key
import CilPolicy.Access.Linked
import CilPolicy.Access.Table
import CilPolicy.BitSet.Basic
import CilPolicy.BitSet.Codec
import CilPolicy.CommandLine.Arguments
import CilPolicy.CommandLine.Run
import CilPolicy.Compiler
import CilPolicy.Configuration.Basic
import CilPolicy.Configuration.Decode
import CilPolicy.Configuration.Load
import CilPolicy.Database.Alias
import CilPolicy.Database.Basic
import CilPolicy.Database.Extended
import CilPolicy.Database.Order
import CilPolicy.Database.Registry
import CilPolicy.Database.Resolve
import CilPolicy.Database.View
import CilPolicy.Diagnostic
import CilPolicy.Document
import CilPolicy.Double
import CilPolicy.Evaluation.Category
import CilPolicy.Evaluation.Database
import CilPolicy.Evaluation.Group
import CilPolicy.Evaluation.Label
import CilPolicy.Evaluation.Set
import CilPolicy.FileContexts
import CilPolicy.Files.Path
import CilPolicy.Files.System
import CilPolicy.Files.Tree
import CilPolicy.Graph.Cycle
import CilPolicy.IpAddress
import CilPolicy.Kernel.Bytes
import CilPolicy.Kernel.Condition
import CilPolicy.Kernel.Context
import CilPolicy.Kernel.Encoding
import CilPolicy.Kernel.Error
import CilPolicy.Kernel.FilenameTransition
import CilPolicy.Kernel.Header
import CilPolicy.Kernel.Policy
import CilPolicy.Kernel.Stats
import CilPolicy.Keyword
import CilPolicy.Log
import CilPolicy.Lowering.AccessRules
import CilPolicy.Lowering.Conditional
import CilPolicy.Lowering.NeverAllow
import CilPolicy.Lowering.Numbering
import CilPolicy.Lowering.Objects
import CilPolicy.Lowering.Policy
import CilPolicy.Lowering.Rules
import CilPolicy.Lowering.Step
import CilPolicy.Lowering.Symbols
import CilPolicy.Main
import CilPolicy.Proofs.Access.Extended
import CilPolicy.Proofs.Access.Linked
import CilPolicy.Proofs.Access.ReadBack
import CilPolicy.Proofs.Access.RoundTrip
import CilPolicy.Proofs.Access.Search
import CilPolicy.Proofs.Access.Table
import CilPolicy.Proofs.BitSet.Codec
import CilPolicy.Proofs.BitSet.Membership
import CilPolicy.Proofs.BitSet.Operations
import CilPolicy.Proofs.BitSet.Refinement
import CilPolicy.Proofs.Board
import CilPolicy.Proofs.Compiler.Agreement
import CilPolicy.Proofs.Compiler.Calls
import CilPolicy.Proofs.Compiler.ContextText
import CilPolicy.Proofs.Compiler.ReadBack
import CilPolicy.Proofs.Compiler.RoleTransitions
import CilPolicy.Proofs.Database.AliasChain
import CilPolicy.Proofs.Database.AliasEnds
import CilPolicy.Proofs.Database.Bindings
import CilPolicy.Proofs.Database.Closure
import CilPolicy.Proofs.Database.Declaration
import CilPolicy.Proofs.Database.Declared
import CilPolicy.Proofs.Database.Edits
import CilPolicy.Proofs.Database.Extended
import CilPolicy.Proofs.Database.Given
import CilPolicy.Proofs.Database.Names
import CilPolicy.Proofs.Database.Order
import CilPolicy.Proofs.Database.Origins
import CilPolicy.Proofs.Database.Permutation
import CilPolicy.Proofs.Database.References
import CilPolicy.Proofs.Database.Registry
import CilPolicy.Proofs.Database.Resolution
import CilPolicy.Proofs.Database.Said
import CilPolicy.Proofs.Database.Settled
import CilPolicy.Proofs.Database.Skeleton
import CilPolicy.Proofs.Database.Statements
import CilPolicy.Proofs.Evaluation.AttributeMeaning
import CilPolicy.Proofs.Evaluation.Category
import CilPolicy.Proofs.Evaluation.CategoryMeaning
import CilPolicy.Proofs.Evaluation.CategoryRanges
import CilPolicy.Proofs.Evaluation.Demand
import CilPolicy.Proofs.Evaluation.Expression
import CilPolicy.Proofs.Evaluation.Grants
import CilPolicy.Proofs.Evaluation.Group
import CilPolicy.Proofs.Evaluation.Labels
import CilPolicy.Proofs.Graph.Chain
import CilPolicy.Proofs.Graph.Cycle
import CilPolicy.Proofs.Kernel.Bytes
import CilPolicy.Proofs.Kernel.FilenameCalls
import CilPolicy.Proofs.Kernel.FilenameMap
import CilPolicy.Proofs.Kernel.FilenameSections
import CilPolicy.Proofs.Kernel.FilenameTransition
import CilPolicy.Proofs.Kernel.HeaderReading
import CilPolicy.Proofs.Kernel.Layout
import CilPolicy.Proofs.Kernel.Reading
import CilPolicy.Proofs.Kernel.Record
import CilPolicy.Proofs.Kernel.Rule
import CilPolicy.Proofs.Kernel.Writable
import CilPolicy.Proofs.Lowering.AccessMeaning
import CilPolicy.Proofs.Lowering.AccessRules
import CilPolicy.Proofs.Lowering.Authorizations
import CilPolicy.Proofs.Lowering.ConditionMeaning
import CilPolicy.Proofs.Lowering.Conditional
import CilPolicy.Proofs.Lowering.Contexts
import CilPolicy.Proofs.Lowering.Dominance
import CilPolicy.Proofs.Lowering.Expansion
import CilPolicy.Proofs.Lowering.ExtendedCheck
import CilPolicy.Proofs.Lowering.ExtendedNumbers
import CilPolicy.Proofs.Lowering.Fits
import CilPolicy.Proofs.Lowering.Inside
import CilPolicy.Proofs.Lowering.Levels
import CilPolicy.Proofs.Lowering.NeverAllow
import CilPolicy.Proofs.Lowering.Numbering
import CilPolicy.Proofs.Lowering.Permissions
import CilPolicy.Proofs.Lowering.Policy
import CilPolicy.Proofs.Lowering.Ranges
import CilPolicy.Proofs.Lowering.RuleContents
import CilPolicy.Proofs.Lowering.RuleEntries
import CilPolicy.Proofs.Lowering.RuleFree
import CilPolicy.Proofs.Lowering.RuleOrder
import CilPolicy.Proofs.Lowering.Rules
import CilPolicy.Proofs.Lowering.Sources
import CilPolicy.Proofs.Lowering.Step
import CilPolicy.Proofs.Lowering.Symbols
import CilPolicy.Proofs.Lowering.TransitionTables
import CilPolicy.Proofs.Lowering.Transitions
import CilPolicy.Proofs.Lowering.TypeRules
import CilPolicy.Proofs.Lowering.Values
import CilPolicy.Proofs.Lowering.Writable
import CilPolicy.Proofs.Report
import CilPolicy.Proofs.Source.Arena
import CilPolicy.Proofs.Source.Grammar
import CilPolicy.Proofs.Source.Lines
import CilPolicy.Proofs.Source.Nesting
import CilPolicy.Proofs.Source.Origins
import CilPolicy.Proofs.Source.Parse
import CilPolicy.Proofs.Source.Passing
import CilPolicy.Proofs.Source.Places
import CilPolicy.Proofs.Source.Printing
import CilPolicy.Proofs.Source.Reader
import CilPolicy.Proofs.Source.Reading
import CilPolicy.Proofs.Source.Regions
import CilPolicy.Proofs.Source.Tokens
import CilPolicy.Proofs.Source.TopLevel
import CilPolicy.Proofs.Source.WellFormed
import CilPolicy.Proofs.Statement.Clauses
import CilPolicy.Proofs.Table.FiniteMap
import CilPolicy.Proofs.Table.Symbol
import CilPolicy.Proofs.Text.Number
import CilPolicy.Proofs.Verification.Circular
import CilPolicy.Proofs.Verification.Context
import CilPolicy.Proofs.Verification.Inside
import CilPolicy.Proofs.Verification.Passed
import CilPolicy.Report
import CilPolicy.Setting
import CilPolicy.Source.Arena
import CilPolicy.Source.Location
import CilPolicy.Source.Parse
import CilPolicy.Source.Reader
import CilPolicy.Source.Token
import CilPolicy.Source.Tree
import CilPolicy.Statement.Basic
import CilPolicy.Statement.Build
import CilPolicy.Statement.Expr
import CilPolicy.Statement.Name
import CilPolicy.Statement.Shape
import CilPolicy.Statement.View
import CilPolicy.Table.Chain
import CilPolicy.Table.Symbol
import CilPolicy.Text.Hidden
import CilPolicy.Text.Number
import CilPolicy.Text.Quoted
import CilPolicy.Text.Utf8
import CilPolicy.Toml.Parse
import CilPolicy.Toml.Quoted
import CilPolicy.Toml.Scalar
import CilPolicy.Toml.Value
import CilPolicy.Verification.Cycle
import CilPolicy.Verification.Level
import CilPolicy.Verification.Policy
import CilPolicy.Version
import CilPolicy.Violation
import CilPolicy.Word
