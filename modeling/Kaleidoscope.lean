import Kaleidoscope.Main
import Kaleidoscope.Source.Faulty
import Kaleidoscope.Proofs.Source.Delivery
import Kaleidoscope.Proofs.Source.Window
import Kaleidoscope.Proofs.Source.Blocks
import Kaleidoscope.Proofs.Source.Split
import Kaleidoscope.Proofs.Token.Gap
import Kaleidoscope.Proofs.Literal.Run
import Kaleidoscope.Proofs.Literal.Grammar
import Kaleidoscope.Proofs.Literal.Conversion
import Kaleidoscope.Proofs.Token.Lexeme
import Kaleidoscope.Proofs.Token.Head
import Kaleidoscope.Proofs.Token.Tiling
import Kaleidoscope.Proofs.Grammar.Derivation
import Kaleidoscope.Proofs.Grammar.Expression
import Kaleidoscope.Proofs.Grammar.Soundness
import Kaleidoscope.Proofs.Grammar.Sentence
import Kaleidoscope.Proofs.Grammar.Program
import Kaleidoscope.Proofs.Grammar.Leaves
import Kaleidoscope.Proofs.Symbols
import Kaleidoscope.Proofs.Token.Replay
import Kaleidoscope.Proofs.Grammar.Fault
import Kaleidoscope.Proofs.Grammar.Recovery
import Kaleidoscope.Proofs.Parser
import Kaleidoscope.Proofs.Parser.Diagnostics
import Kaleidoscope.Proofs.Parser.Failure
import Kaleidoscope.Proofs.Decimal.Interval
import Kaleidoscope.Proofs.Literal.Magnitude
import Kaleidoscope.Proofs.Literal.Decimal
import Kaleidoscope.Proofs.Literal.Spelling
import Kaleidoscope.Proofs.Tree.Text
import Kaleidoscope.Proofs.Tree.Readable
import Kaleidoscope.Proofs.Token.Reading
import Kaleidoscope.Proofs.Parser.Printing
import Kaleidoscope.Tree.Dump
import Kaleidoscope.Proofs.Tree.Dump
import Kaleidoscope.Proofs.Tree.Lexemes
import Kaleidoscope.Proofs.Literal.Rounding
import Kaleidoscope.Proofs.Literal.ReadBack
import Kaleidoscope.Proofs.Token.Lookahead
import Kaleidoscope.Proofs.Token.Scan
import Kaleidoscope.Proofs.Token.Joining
import Kaleidoscope.Proofs.Grammar.Parallel
import Kaleidoscope.Proofs.Grammar.Joining
import Kaleidoscope.Proofs.Parser.Scan
import Kaleidoscope.Proofs.Parser.Joining
import Kaleidoscope.Proofs.Token.Layout
import Kaleidoscope.Proofs.Parser.Layout
import Kaleidoscope.Proofs.Session
import Kaleidoscope.Proofs.Source.Bounds
import Kaleidoscope.Proofs.Token.Sharing
import Kaleidoscope.Proofs.Symbols.Interning
import Kaleidoscope.Proofs.Command.Output
import Kaleidoscope.Proofs.Command.Lex
import Kaleidoscope.Proofs.Command.Parse
import Kaleidoscope.Proofs.Source.Failing
import Kaleidoscope.Proofs.Source.Shadow
import Kaleidoscope.Proofs.Source.Recovery
import Kaleidoscope.Proofs.Source.Rewinding
import Kaleidoscope.Proofs.Token.Number
import Kaleidoscope.Proofs.Literal.Nearest
import Kaleidoscope.Proofs.Literal.Sum
import Kaleidoscope.Proofs.Literal.Radix
import Kaleidoscope.Proofs.Source.Probe
import Kaleidoscope.Proofs.Token.Resuming
import Kaleidoscope.Proofs.Token.Longest
import Kaleidoscope.Proofs.Token.Unfailed
import Kaleidoscope.Proofs.Token.Limit
import Kaleidoscope.Proofs.Token.Printed
import Kaleidoscope.Proofs.Token.Yields
import Kaleidoscope.Proofs.Sink
import Kaleidoscope.Proofs.Token.Dump
import Kaleidoscope.Proofs.Source.Agreement
import Kaleidoscope.Proofs.Token.Agreement
import Kaleidoscope.Proofs.Token.Resetting
import Kaleidoscope.Proofs.Transcript
import Kaleidoscope.Proofs.Source.Sessions
import Kaleidoscope.Proofs.Source.Retrying
import Kaleidoscope.Proofs.Source.Pieces
import Kaleidoscope.Proofs.Token.Pieces
import Kaleidoscope.Proofs.Parser.Pieces
import Kaleidoscope.Proofs.Parser.Names
import Kaleidoscope.Proofs.Parser.Descent
import Kaleidoscope.Proofs.Parser.Following
import Kaleidoscope.Proofs.Parser.Events
import Kaleidoscope.Proofs.Parser.Requests
import Kaleidoscope.Proofs.Token.Keeping
import Kaleidoscope.Proofs.Token.Order
import Kaleidoscope.Proofs.Source.Loads
import Kaleidoscope.Proofs.Parser.Checks
import Kaleidoscope.Proofs.Parser.Raised
