import Graft.Call.Boundary
import Graft.Command.Places
import Graft.Main
import Graft.Quote.Scan
import Graft.Settings.Project
import Graft.Settings.Text
import Graft.Toolchain.Script
import Graft.Types.Builtin
import Graft.Unit.Expand
import Graft.Proofs.Result
import Graft.Proofs.Text.Position
import Graft.Proofs.Text.LineIndex
import Graft.Proofs.Token.Depth
import Graft.Proofs.Token.Span
import Graft.Proofs.Token.Word
import Graft.Proofs.Token.Step
import Graft.Proofs.Token.Bare
import Graft.Proofs.Grammar.Takes
import Graft.Proofs.Types.Plain
import Graft.Proofs.Grammar.Plain
import Graft.Proofs.Grammar.PlainPath
import Graft.Proofs.Grammar.PlainFunction
import Graft.Proofs.Grammar.PlainType
import Graft.Proofs.Types.Lookup
import Graft.Proofs.Types.Merge
import Graft.Proofs.Types.Closure
import Graft.Proofs.Types.UniqueParts
import Graft.Proofs.Types.Unique
import Graft.Proofs.Types.Resolve
import Graft.Proofs.Quote.Cut
import Graft.Proofs.Quote.Scan
import Graft.Proofs.Quote.Lexeme
import Graft.Proofs.Quote.Piece
import Graft.Proofs.Quote.Partition
import Graft.Proofs.Quote.Lines
import Graft.Proofs.Quote.Locality
import Graft.Proofs.Snippet.Fill
import Graft.Proofs.Snippet.Read
import Graft.Proofs.Snippet.Place
import Graft.Proofs.Snippet.Defect
import Graft.Proofs.Snippet.Types
import Graft.Proofs.Unit.Step
import Graft.Proofs.Unit.Failure
import Graft.Proofs.Unit.Agreement
import Graft.Proofs.Unit.Splice
import Graft.Proofs.Unit.EditOrder
import Graft.Proofs.Unit.Context
import Graft.Proofs.Call.Symbol
import Graft.Proofs.Call.Name
import Graft.Proofs.Files.Path
import Graft.Proofs.Files.Tree
import Graft.Proofs.Command.Outputs
import Graft.Proofs.Unit.Entry
import Graft.Proofs.Unit.Symbols
import Graft.Proofs.Unit.Verdict
import Graft.Proofs.Unit.Neighbour
import Graft.Proofs.Diagnostic.Hints
import Graft.Proofs.Files.Order
import Graft.Proofs.Files.Write
import Graft.Proofs.Unit.Sink
import Graft.Proofs.Files.Join
import Graft.Proofs.Files.Search
import Graft.Proofs.Command.Collect
import Graft.Proofs.Command.Isolation
import Graft.Proofs.Quote.Operator
import Graft.Proofs.Token.Front
import Graft.Proofs.Token.Skips
import Graft.Proofs.Token.Inside
import Graft.Proofs.Token.Extend
import Graft.Proofs.Token.Ahead
import Graft.Proofs.Token.Canonical
import Graft.Proofs.Grammar.Refine
import Graft.Proofs.Grammar.RefineType
import Graft.Proofs.Grammar.RefineExpression
import Graft.Proofs.Grammar.RefineItem
import Graft.Proofs.Grammar.Enclosed
import Graft.Proofs.Token.Respaced
import Graft.Proofs.Grammar.Alike
import Graft.Proofs.Grammar.Blind
import Graft.Proofs.Grammar.BlindItem
import Graft.Proofs.Token.Apart
import Graft.Proofs.Types.Respelled
import Graft.Proofs.Types.Brackets
import Graft.Proofs.Types.Application
import Graft.Proofs.Types.Arrow
import Graft.Proofs.Types.Parens
import Graft.Proofs.Settings.Mappings
import Graft.Proofs.Types.Identities
import Graft.Proofs.Command.Confined
import Graft.Proofs.Files.Alike
import Graft.Proofs.Command.AnyOrder
import Graft.Proofs.Diagnostic.EditDistance
import Graft.Proofs.Toolchain.Link
import Graft.Proofs.Toolchain.Framework
import Graft.Proofs.Toml.Ahead
import Graft.Proofs.Toml.Section
import Graft.Proofs.Settings.Unset
import Graft.Proofs.Grammar.Steady
import Graft.Proofs.Grammar.SteadyType
import Graft.Proofs.Grammar.Sequence
import Graft.Proofs.Unit.ItemText
import Graft.Proofs.Unit.ForeignFile
