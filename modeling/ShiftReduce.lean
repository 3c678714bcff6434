import ShiftReduce.Main
import ShiftReduce.CommandLine.FileTree
import ShiftReduce.Log
import ShiftReduce.Pascal.Log
import ShiftReduce.Proofs.Language
import ShiftReduce.Proofs.Forms
import ShiftReduce.Proofs.Prefix
import ShiftReduce.Proofs.Lookahead.Saturation
import ShiftReduce.Proofs.Lookahead.Beginnings
import ShiftReduce.Proofs.Lookahead.First
import ShiftReduce.Proofs.Lookahead.Follow
import ShiftReduce.Proofs.Lookahead.Exactness
import ShiftReduce.Proofs.Table.Plan
import ShiftReduce.Proofs.Table.Exploration
import ShiftReduce.Proofs.Table.Builder
import ShiftReduce.Proofs.Table.Automaton
import ShiftReduce.Proofs.Table.Conflicts
import ShiftReduce.Proofs.Table.Pruned
import ShiftReduce.Proofs.Table.Worklists
import ShiftReduce.Proofs.Table.Mismatches
import ShiftReduce.Proofs.Table.Visits
import ShiftReduce.Proofs.RuleOrder.Items
import ShiftReduce.Proofs.RuleOrder.Tables
import ShiftReduce.Proofs.RuleOrder.Runs
import ShiftReduce.Proofs.Epsilon.Erasure
import ShiftReduce.Proofs.Epsilon.Tables
import ShiftReduce.Proofs.Epsilon.Runs
import ShiftReduce.Proofs.Parser.Moves
import ShiftReduce.Proofs.Parser.Results
import ShiftReduce.Proofs.Parser.Reading
import ShiftReduce.Proofs.Parser.Soundness
import ShiftReduce.Proofs.Parser.Coverage
import ShiftReduce.Proofs.Parser.Footing
import ShiftReduce.Proofs.Parser.Driver
import ShiftReduce.Proofs.Parser.Safety
import ShiftReduce.Proofs.Sane
import ShiftReduce.Proofs.Parser.Effect
import ShiftReduce.Proofs.Parser.Accounts
import ShiftReduce.Proofs.Parser.Weights
import ShiftReduce.Proofs.Parser.Termination
import ShiftReduce.Proofs.Parser.Viable
import ShiftReduce.Proofs.Parser.Guide
import ShiftReduce.Proofs.Parser.Completeness
import ShiftReduce.Proofs.Parser.CorrectPrefix
import ShiftReduce.Proofs.Parser.Mending
import ShiftReduce.Proofs.Precedence.Settled
import ShiftReduce.Proofs.Parser.Replay
import ShiftReduce.Proofs.Parser.Separators
import ShiftReduce.Proofs.Statements
import ShiftReduce.Proofs.Parser.Recoveries
import ShiftReduce.Proofs.Parser.Trace
import ShiftReduce.Proofs.Parser.Unwinding
import ShiftReduce.Proofs.Parser.Respelling
import ShiftReduce.Proofs.Precedence.Infix
import ShiftReduce.Proofs.Precedence.Operators
import ShiftReduce.Proofs.Precedence.OperatorTable
import ShiftReduce.Proofs.Precedence.Expressions
import ShiftReduce.Proofs.Pascal.Choices
import ShiftReduce.Proofs.Pascal.Shapes
import ShiftReduce.Proofs.Pascal.Bindings
import ShiftReduce.Proofs.Pascal.Settling
import ShiftReduce.Proofs.Pascal.Sentences
import ShiftReduce.Proofs.Pascal.Sanity
import ShiftReduce.Proofs.Pascal.Recovered
import ShiftReduce.Proofs.Pascal.Disambiguation
import ShiftReduce.Proofs.Pascal.Resuming
import ShiftReduce.Proofs.Positions
import ShiftReduce.Proofs.Parser.Tracing
import ShiftReduce.Proofs.Pascal.Budget
import ShiftReduce.Proofs.Pascal.Tracing
import ShiftReduce.Proofs.CommandLine.Verdicts
import ShiftReduce.Proofs.Pascal.Patterns
import ShiftReduce.Proofs.Pascal.Literals
import ShiftReduce.Proofs.Pascal.Lines
import ShiftReduce.Proofs.Pascal.Layout
import ShiftReduce.Proofs.Pascal.Munch
import ShiftReduce.Proofs.Pascal.Seams
import ShiftReduce.Proofs.Pascal.Respacing
import ShiftReduce.Proofs.Pascal.LetterCase
import ShiftReduce.Proofs.Pascal.CaseInsensitivity
import ShiftReduce.Proofs.LeastClosure
import ShiftReduce.Proofs.Spans
import ShiftReduce.Proofs.Pascal.Spans
import ShiftReduce.Proofs.Pascal.ErrorRanges
import ShiftReduce.Proofs.QuotedText
import ShiftReduce.Proofs.PrintedTrees
import ShiftReduce.Proofs.GraphLabels
