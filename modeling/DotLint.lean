import DotLint.Source.Location
import DotLint.Token.Basic
import DotLint.Token.Lexer
import DotLint.Syntax.Node
import DotLint.Syntax.Brackets
import DotLint.Syntax.Parse.Basic
import DotLint.Syntax.Parse.Grammar
import DotLint.Syntax.Walk
import DotLint.Syntax.Returns
import DotLint.Source.Text
import DotLint.Token.Cursor
import DotLint.Fix.Edit
import DotLint.Rule.DotLocation
import DotLint.Lint
import DotLint.Text.Visible
import DotLint.Toml.Document
import DotLint.Toml.Scan
import DotLint.Toml.Binary64
import DotLint.Toml.Scalar
import DotLint.Toml.Tables
import DotLint.Toml.Grammar
import DotLint.Toml.Report
import DotLint.Config
import DotLint.Check
import DotLint.Main
import DotLint.Proofs.TokenTiling
import DotLint.Proofs.ParseRun
import DotLint.Proofs.NodeSpans
import DotLint.Proofs.GrammarSpans
import DotLint.Proofs.ExpressionSpans
import DotLint.Proofs.ProgramSpans
import DotLint.Proofs.ParseAgree
import DotLint.Proofs.ParseMoved
import DotLint.Proofs.ParseMovedExpressions
import DotLint.Proofs.Respan
import DotLint.Proofs.WalkPreorder
import DotLint.Proofs.ParsedTree
import DotLint.Proofs.ReturnSearch
import DotLint.Proofs.LintFindings
import DotLint.Proofs.BytePositions
import DotLint.Proofs.TokenReading
import DotLint.Proofs.TextLayout
import DotLint.Proofs.DotMoves
import DotLint.Proofs.FixApply
import DotLint.Proofs.DotFixes
import DotLint.Proofs.LineBreaks
import DotLint.Proofs.FixedText
import DotLint.Proofs.FixedFindings
import DotLint.Proofs.CursorScans
import DotLint.Proofs.LineStarts
import DotLint.Proofs.EditSplice
import DotLint.Proofs.FixSplice
import DotLint.Proofs.FixSource
import DotLint.Proofs.ParsedWalk
import DotLint.Proofs.FixSelection
import DotLint.Proofs.Stratified
import DotLint.Proofs.ParseRuns
import DotLint.Proofs.BudgetRuns
import DotLint.Proofs.GrammarBudget
import DotLint.Proofs.ParseBudget
import DotLint.Proofs.PrecedenceClimbing
import DotLint.Proofs.PowerChains
import DotLint.Proofs.BracketDepth
import DotLint.Proofs.SpacedTokens
