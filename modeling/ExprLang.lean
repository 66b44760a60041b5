import ExprLang.Token
import ExprLang.Lexer
import ExprLang.ByteLexer
import ExprLang.Tree
import ExprLang.Tree.Equality
import ExprLang.Tree.Render
import ExprLang.SyntaxError
import ExprLang.Text.Decimal
import ExprLang.Event
import ExprLang.Grammar
import ExprLang.Parser.Action
import ExprLang.Parse
import ExprLang.CommandLine
import ExprLang.CommandLine.Directory
import ExprLang.Main
import ExprLang.Parser.Operation
import ExprLang.Proofs.Frame
import ExprLang.Proofs.Lockstep
import ExprLang.Proofs.Recursion
import ExprLang.Proofs.FirstFault
import ExprLang.Proofs.Cursor
import ExprLang.Proofs.Spelling
import ExprLang.Proofs.Reading
import ExprLang.Proofs.Syntax
import ExprLang.Proofs.Precedence
import ExprLang.Proofs.Soundness
import ExprLang.Proofs.Completeness
import ExprLang.Proofs.Canonical
import ExprLang.Proofs.RenderedText
import ExprLang.Proofs.RoundTrip
import ExprLang.Proofs.Tiling
import ExprLang.Proofs.Boundaries
import ExprLang.Proofs.Lossless
import ExprLang.Proofs.LongestMatch
import ExprLang.Proofs.Spacing
import ExprLang.Proofs.Effect
import ExprLang.Proofs.Charging
import ExprLang.Proofs.Prediction
import ExprLang.Proofs.Tracking
import ExprLang.Proofs.CorrectPrefix
import ExprLang.Proofs.Remaining
import ExprLang.Proofs.Nesting
import ExprLang.Proofs.Unbounded
import ExprLang.Proofs.Composition
import ExprLang.Proofs.ChainTree
import ExprLang.Proofs.OperatorChain
import ExprLang.Proofs.NodeTokens
import ExprLang.Proofs.Gathering
import ExprLang.Proofs.Progress
import ExprLang.Proofs.ClosingParenthesis
import ExprLang.Proofs.Recording
import ExprLang.Proofs.SharedStream
import ExprLang.Proofs.Termination
import ExprLang.Proofs.Invariant
import ExprLang.Proofs.Reports
import ExprLang.Proofs.Unambiguous
import ExprLang.Proofs.Numerals
import ExprLang.Proofs.Diagnosis
import ExprLang.Proofs.Arguments
import ExprLang.Proofs.Listing
import ExprLang.Proofs.Resuming
