import MiniPascal.CommandLine.Answer
import MiniPascal.CommandLine.Options
import MiniPascal.Main
import MiniPascal.Number.Basic
import MiniPascal.Number.Binary64
import MiniPascal.Number.Decimal
import MiniPascal.Number.Literal
import MiniPascal.Pipeline
import MiniPascal.Program.Diagram
import MiniPascal.Program.Parser
import MiniPascal.Program.Printer
import MiniPascal.Program.Session
import MiniPascal.Program.Tree
import MiniPascal.Program.Visit
import MiniPascal.Proofs.Number.Constants
import MiniPascal.Proofs.Number.Exactness
import MiniPascal.Proofs.Number.Packing
import MiniPascal.Proofs.Program.Advancing
import MiniPascal.Proofs.Program.Arranging
import MiniPascal.Proofs.Program.Carets
import MiniPascal.Proofs.Program.Completeness
import MiniPascal.Proofs.Program.Correctness
import MiniPascal.Proofs.Program.Descent
import MiniPascal.Proofs.Program.Diagrams
import MiniPascal.Proofs.Program.EarliestRefusal
import MiniPascal.Proofs.Program.ExpressionText
import MiniPascal.Proofs.Program.FirstError
import MiniPascal.Proofs.Program.Fronts
import MiniPascal.Proofs.Program.Grammar
import MiniPascal.Proofs.Program.Headers
import MiniPascal.Proofs.Program.Keeping
import MiniPascal.Proofs.Program.LastDot
import MiniPascal.Proofs.Program.Lockstep
import MiniPascal.Proofs.Program.Nodes
import MiniPascal.Proofs.Program.Numbering
import MiniPascal.Proofs.Program.Origins
import MiniPascal.Proofs.Program.ParsingAdvances
import MiniPascal.Proofs.Program.ParsingKept
import MiniPascal.Proofs.Program.ParsingTaken
import MiniPascal.Proofs.Program.ParsingUnplaced
import MiniPascal.Proofs.Program.ParsingViable
import MiniPascal.Proofs.Program.RenderedExpressions
import MiniPascal.Proofs.Program.RenderedStatements
import MiniPascal.Proofs.Program.Rereading
import MiniPascal.Proofs.Program.Returning
import MiniPascal.Proofs.Program.Soundness
import MiniPascal.Proofs.Program.Spaced
import MiniPascal.Proofs.Program.Standing
import MiniPascal.Proofs.Program.Succession
import MiniPascal.Proofs.Program.Taking
import MiniPascal.Proofs.Program.Traversal
import MiniPascal.Proofs.Program.Unplaced
import MiniPascal.Proofs.Program.Viability
import MiniPascal.Proofs.Program.Writing
import MiniPascal.Proofs.Run.Activations
import MiniPascal.Proofs.Run.CallGraph
import MiniPascal.Proofs.Run.CallSites
import MiniPascal.Proofs.Run.Causes
import MiniPascal.Proofs.Run.Coherence
import MiniPascal.Proofs.Run.Depth
import MiniPascal.Proofs.Run.Discipline
import MiniPascal.Proofs.Run.Ending
import MiniPascal.Proofs.Run.ExecutionUnplaced
import MiniPascal.Proofs.Run.Initialisation
import MiniPascal.Proofs.Run.Integers
import MiniPascal.Proofs.Run.Isolation
import MiniPascal.Proofs.Run.Layout
import MiniPascal.Proofs.Run.Natural
import MiniPascal.Proofs.Run.Pointing
import MiniPascal.Proofs.Run.Procedures
import MiniPascal.Proofs.Run.Promotion
import MiniPascal.Proofs.Run.Rules
import MiniPascal.Proofs.Run.Safety
import MiniPascal.Proofs.Run.Stopping
import MiniPascal.Proofs.Run.Unfolding
import MiniPascal.Proofs.Run.Values
import MiniPascal.Proofs.Scope.Analysed
import MiniPascal.Proofs.Scope.AnalysisUnplaced
import MiniPascal.Proofs.Scope.Causes
import MiniPascal.Proofs.Scope.Clashes
import MiniPascal.Proofs.Scope.Ledger
import MiniPascal.Proofs.Scope.Listing
import MiniPascal.Proofs.Scope.Nesting
import MiniPascal.Proofs.Scope.Parsed
import MiniPascal.Proofs.Scope.Precedence
import MiniPascal.Proofs.Scope.Stages
import MiniPascal.Proofs.Scope.StatementParts
import MiniPascal.Proofs.Scope.Statements
import MiniPascal.Proofs.Scope.Tables
import MiniPascal.Proofs.Scope.Walk
import MiniPascal.Proofs.Source.Columns
import MiniPascal.Proofs.Source.Excerpts
import MiniPascal.Proofs.Source.Rows
import MiniPascal.Proofs.Source.Window
import MiniPascal.Proofs.Token.Blanking
import MiniPascal.Proofs.Token.Buffering
import MiniPascal.Proofs.Token.Calls
import MiniPascal.Proofs.Token.Cutting
import MiniPascal.Proofs.Token.Lexemes
import MiniPascal.Proofs.Token.Longest
import MiniPascal.Proofs.Token.Passing
import MiniPascal.Proofs.Token.Places
import MiniPascal.Proofs.Token.Reading
import MiniPascal.Proofs.Token.Reported
import MiniPascal.Proofs.Token.Tiling
import MiniPascal.Report.Failure
import MiniPascal.Report.Log
import MiniPascal.Run.Execution
import MiniPascal.Run.Frame
import MiniPascal.Run.Interpreter
import MiniPascal.Run.Machine
import MiniPascal.Scope.Analysis
import MiniPascal.Scope.Symbol
import MiniPascal.Scope.Tree
import MiniPascal.Source.Alphabet
import MiniPascal.Source.Excerpt
import MiniPascal.Source.Position
import MiniPascal.Source.Reader
import MiniPascal.Token.Basic
import MiniPascal.Token.Lexer
import MiniPascal.Token.Stream
