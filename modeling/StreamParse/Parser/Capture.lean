import StreamParse.Cursor.Span
import StreamParse.Parser.Basic

/-!
# Captures

A capture parses for the sake of the input that is taken, and gives that input or its place instead
of the parsed value.
-/

namespace StreamParse.Parser

variable {α : Type}

/-- The input that `p` takes, as text. -/
def captureText (p : Parser α) : Parser String := fun entry => do
  match ← p entry with
  | .error failure => return .error (failure.rewind entry)
  | .ok (_, cursor) =>
    match ← entry.textUntil cursor with
    | .error error => return .error ⟨error, entry⟩
    | .ok text => return .ok (text, cursor)

/-- The input that `p` takes. -/
def captureBytes (p : Parser α) : Parser (Array UInt8) := fun entry => do
  match ← p entry with
  | .error failure => return .error (failure.rewind entry)
  | .ok (_, cursor) => return .ok (← entry.bytesUntil cursor, cursor)

/-- The positions before and after the input that `p` takes. -/
def capturePositions (p : Parser α) : Parser (Position × Position) := fun entry => do
  match ← p entry with
  | .error failure => return .error (failure.rewind entry)
  | .ok (_, cursor) => return .ok ((entry.position, cursor.position), cursor)

end StreamParse.Parser
