import StreamParse.IntType
import StreamParse.Position
import StreamParse.Source
import StreamParse.Text.Quoted

/-!
# Errors and faults

An error is an outcome of reading or parsing that the caller is meant to handle.  A fault is a
misuse of the library, by its caller or by a source, and ends the operation in which it happens.
-/

namespace StreamParse

/-- Why an error was raised at its position. -/
inductive Cause where
  /-- The source failed. -/
  | source (failure : SourceFailure)
  /-- A number does not fit into the type it was asked to fit. -/
  | overflow (type : IntType)
  /-- Raised by a parser's own rules. -/
  | custom (message : String)
  deriving DecidableEq

def Cause.message : Cause → String
  | .source failure => failure.message
  | .overflow type => "number does not fit into `" ++ type.name ++ "`"
  | .custom message => message

def Cause.describe : Cause → String
  | .source failure =>
    Text.record "Custom" [("kind", failure.kind.name), ("error", Text.quote failure.message)]
  | .overflow type => Text.record "NumberOverflow" [("target", Text.quote type.name)]
  | .custom message => Text.applied "Custom" (Text.quote message)

/-- The outcome of a read or a parse that did not succeed. -/
inductive Error where
  /-- There is no more input. -/
  | endOfInput
  /-- The bytes at `position` do not encode a scalar value. -/
  | invalidEncoding (position : Position)
  /-- The input is not what the parser expects. -/
  | noMatch
  /-- Anything else, with the place where it was found. -/
  | positioned (position : Position) (cause : Cause)
  deriving DecidableEq

namespace Error

def message : Error → String
  | .endOfInput => "end of input"
  | .invalidEncoding position => "invalid UTF-8 sequence at " ++ position.display
  | .noMatch => "no match"
  | .positioned position cause => "error at " ++ position.display ++ ": " ++ cause.message

def position? : Error → Option Position
  | .invalidEncoding position => some position
  | .positioned position _ => some position
  | .endOfInput | .noMatch => none

def cause? : Error → Option Cause
  | .positioned _ cause => some cause
  | _ => none

def describe : Error → String
  | .endOfInput => "EndOfInput"
  | .noMatch => "NoMatch"
  | .invalidEncoding position =>
    Text.record "InvalidEncoding" [("position", position.describe)]
  | .positioned position cause =>
    Text.applied "Positioned" <|
      Text.record "PositionedError"
        [("position", position.describe), ("source", cause.describe)]

def isEndOfInput : Error → Bool
  | .endOfInput => true
  | _ => false

/-- Whether another parser may be tried at the same place: the input was read without trouble, it
just is not what was asked for. -/
def fallsThrough : Error → Bool
  | .endOfInput | .noMatch => true
  | _ => false

end Error

/-- Things that hold of every chain and cursor this library makes.  Each is checked where it is
relied on. -/
inductive Inconsistency where
  /-- A cursor names a chunk that is not there. -/
  | chunkMissing
  /-- A cursor stands beyond the end of its chunk. -/
  | beyondChunk
  /-- A chunk that was chosen for its bytes has none. -/
  | chunkEmpty
  /-- A sequence is still undecided although it has the greatest width. -/
  | windowFull
  /-- A sequence does not end in the chunk that completed it. -/
  | sequenceMisplaced
  /-- A span is not as long as the offsets of its ends say. -/
  | spanLength
  /-- An offset is too large for an address. -/
  | offsetOverflow
  deriving DecidableEq

/-- Misuse that ends an operation. -/
inductive Fault where
  /-- A cursor without input was read from. -/
  | detached
  /-- A span was asked for whose end lies before its start. -/
  | spanReversed
  /-- A span was asked for whose ends lie in different inputs. -/
  | spanUnreachable
  /-- A source claimed more bytes than there was room for. -/
  | overclaimed (conduct : Conduct)
  | inconsistent (what : Inconsistency)
  /-- A name was used that is not defined. -/
  | undefined (name : String)
  /-- The rules of a grammar call each other without end. -/
  | endless
  deriving DecidableEq

namespace Fault

def message : Fault → String
  | .detached => "read from a State that does not refer to any input"
  | .spanReversed => "span end lies before its start"
  | .spanUnreachable => "span end is not reachable from its start"
  | .overclaimed .reader => "invariant of std::io::Read trait violated"
  | .overclaimed .supplier => "source reported more bytes than requested"
  | .inconsistent .spanLength => "span length does not match the consumed offsets"
  | .inconsistent _ => "inconsistent chain"
  | .undefined name => "undefined name: " ++ name
  | .endless => "endless recursion"

end Fault
end StreamParse
