import StreamParse.Session
import StreamParse.Proofs.Chain.Invariant
import StreamParse.Proofs.Utf8
import StreamParse.Proofs.Utf8.Text
import StreamParse.Proofs.Chain.Reading
import StreamParse.Proofs.Cursor.Reading
import StreamParse.Proofs.Cursor.Span
import StreamParse.Proofs.Parser.Reference
import StreamParse.Proofs.Parser.Orderly
import StreamParse.Proofs.Parser.Refinement
import StreamParse.Proofs.Input
import StreamParse.Proofs.Parser.Composed
import StreamParse.Proofs.Parser.Streaming
import StreamParse.Proofs.Reach
import StreamParse.Proofs.Parser.Reach
import StreamParse.Proofs.Session
import StreamParse.Proofs.Conformance
import StreamParse.Proofs.Parser.HardErrors
import StreamParse.Proofs.Chain.Growth
import StreamParse.Proofs.Cursor.Replay
import StreamParse.Proofs.Parser.Heritable
import StreamParse.Proofs.Parser.Replay
import StreamParse.Proofs.Onward
import StreamParse.Proofs.Parser.Onward
import StreamParse.Proofs.Parser.Rewind
import StreamParse.Proofs.Chain.Layout
import StreamParse.Proofs.Chain.Nodes
import StreamParse.Proofs.Layout
import StreamParse.Proofs.Chain.Drain
import StreamParse.Proofs.Drain
import StreamParse.Proofs.Faults
import StreamParse.Proofs.Canonical
import StreamParse.Proofs.Chain.Demand
import StreamParse.Proofs.Demand
import StreamParse.Proofs.Parser.Refactoring
import StreamParse.Proofs.Chain.Overclaim
import StreamParse.Proofs.Overclaim
import StreamParse.Proofs.Position
import StreamParse.Proofs.Span
import StreamParse.Proofs.TextSpan
import StreamParse.Proofs.Runes
import StreamParse.Proofs.Parser.Literal
import StreamParse.Proofs.Place
import StreamParse.Proofs.Literal
import StreamParse.Proofs.Parser.Repetition
import StreamParse.Proofs.Numeral
import StreamParse.Proofs.Parser.Digits
import StreamParse.Proofs.Digits
import StreamParse.Proofs.Reader
import StreamParse.Proofs.Chain.Regular
import StreamParse.Proofs.Regular
import StreamParse.Proofs.Utf8.Verdict
import StreamParse.Proofs.Exchange
