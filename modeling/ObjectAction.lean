import ObjectAction.Text.Blank
import ObjectAction.Text.Mark
import ObjectAction.Number.Binary
import ObjectAction.Number.Shortest
import ObjectAction.Number.Layout
import ObjectAction.Number.Reading
import ObjectAction.Token.Keyword
import ObjectAction.Token.Kind
import ObjectAction.Token.Piece
import ObjectAction.Token.Lexing
import ObjectAction.Body.Tree
import ObjectAction.Body.Outline
import ObjectAction.Body.Stream
import ObjectAction.Body.ExpressionParser
import ObjectAction.Body.StatementParser
import ObjectAction.Table
import ObjectAction.Value
import ObjectAction.Scope
import ObjectAction.Population.Error
import ObjectAction.Population.Action
import ObjectAction.Population.Association
import ObjectAction.Population.Basic
import ObjectAction.Population.Navigation
import ObjectAction.Population.Native
import ObjectAction.Model.Basic
import ObjectAction.Document.Basic
import ObjectAction.Document.Cursor
import ObjectAction.Document.Scalar
import ObjectAction.Document.Token
import ObjectAction.Document.Layout
import ObjectAction.Document.Node
import ObjectAction.Document.Graph
import ObjectAction.Document.Expansion
import ObjectAction.Document.Reading
import ObjectAction.Model.Shape
import ObjectAction.Model.Load
import ObjectAction.Population.Update
import ObjectAction.Run.Fault
import ObjectAction.Run.Operators
import ObjectAction.Run.Journal
import ObjectAction.Run.State
import ObjectAction.Run.Place
import ObjectAction.Run.Expression
import ObjectAction.Run.Statement
import ObjectAction.Run.Evaluation
import ObjectAction.Command.Options
import ObjectAction.Command.Files
import ObjectAction.Command.Report
import ObjectAction.Main
import ObjectAction.Proofs.Body.Lexeme
import ObjectAction.Proofs.Token.Fragment
import ObjectAction.Proofs.Token.Cut
import ObjectAction.Proofs.Token.Seam
import ObjectAction.Proofs.Token.Spacing
import ObjectAction.Proofs.Body.Writing
import ObjectAction.Proofs.Body.Grammar
import ObjectAction.Proofs.Body.Taking
import ObjectAction.Proofs.Body.Reading
import ObjectAction.Proofs.Body.Expression
import ObjectAction.Proofs.Body.Statement
import ObjectAction.Proofs.Body.RoundTrip
import ObjectAction.Proofs.Table
import ObjectAction.Proofs.Population.History
import ObjectAction.Proofs.Population.Handles
import ObjectAction.Proofs.Population.Links
import ObjectAction.Proofs.Population.Declarations
import ObjectAction.Proofs.Population.Navigation
import ObjectAction.Proofs.Population.Resolution
import ObjectAction.Proofs.Population.Failure
import ObjectAction.Proofs.Population.Attributes
import ObjectAction.Proofs.Run.Discipline
import ObjectAction.Proofs.Run.Expression
import ObjectAction.Proofs.Run.Statement
import ObjectAction.Proofs.Run.Evaluation
import ObjectAction.Proofs.Run.Trace
import ObjectAction.Proofs.Run.Signal
import ObjectAction.Proofs.Run.Linking
import ObjectAction.Proofs.Run.Record
import ObjectAction.Proofs.Run.Law
import ObjectAction.Proofs.Run.Upheld
import ObjectAction.Proofs.Run.Entry
import ObjectAction.Proofs.Run.WellFormed
import ObjectAction.Proofs.Run.Blame
import ObjectAction.Proofs.Body.Soundness
import ObjectAction.Proofs.Body.Placement
import ObjectAction.Proofs.Body.Extents
import ObjectAction.Proofs.Token.Position
import ObjectAction.Proofs.Body.Relocation
import ObjectAction.Proofs.Body.Parallel
import ObjectAction.Proofs.Body.Concatenation
import ObjectAction.Proofs.Token.Lines
import ObjectAction.Proofs.Scope.Shadowing
import ObjectAction.Proofs.Body.Abreast
import ObjectAction.Proofs.Body.Layout
import ObjectAction.Proofs.Run.Parting
import ObjectAction.Proofs.Run.Logging
import ObjectAction.Proofs.Token.Casing
import ObjectAction.Proofs.Population.Relating
import ObjectAction.Proofs.Scope.Lookup
import ObjectAction.Proofs.Run.Cursor
import ObjectAction.Proofs.Run.Passes
import ObjectAction.Proofs.Run.Frame
import ObjectAction.Proofs.Run.Isolation
import ObjectAction.Proofs.Run.Indexing
import ObjectAction.Proofs.Run.Places
import ObjectAction.Proofs.Population.Path
import ObjectAction.Proofs.Run.Selection
import ObjectAction.Proofs.Run.Unlinking
import ObjectAction.Proofs.Run.Congruence
import ObjectAction.Proofs.Run.Ledger
import ObjectAction.Proofs.Scope.Padding
import ObjectAction.Proofs.Token.Longest
import ObjectAction.Proofs.Run.Arithmetic
import ObjectAction.Proofs.Population.Loading
import ObjectAction.Proofs.Command.Options
import ObjectAction.Proofs.Body.Advance
import ObjectAction.Proofs.Body.Progress
