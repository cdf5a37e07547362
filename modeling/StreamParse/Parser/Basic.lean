import StreamParse.Cursor.Traversal

/-!
# Parsers

A parser takes a cursor and gives a value with the cursor after the input it took.  Where it fails
it gives an error with the cursor from which reading may go on; a parser of this library always
gives the cursor it was started from, so that a failure takes no input.

This module has the parsers that read units themselves.
-/

namespace StreamParse

/-- A parse that failed. -/
structure Failure where
  error : Error
  /-- Where reading may go on. -/
  cursor : Cursor
  deriving DecidableEq

/-- The same error, with reading to go on elsewhere. -/
def Failure.rewind (failure : Failure) (cursor : Cursor) : Failure :=
  { failure with cursor }

def Failure.describe (failure : Failure) : String :=
  Text.record "Failure"
    [("error", failure.error.describe), ("position", failure.cursor.position.describe)]

/-- The outcome of a parse. -/
abbrev Parsed (α : Type) := Except Failure (α × Cursor)

/-- What parses a value of type `α` from a cursor on. -/
abbrev Parser (α : Type) := Cursor → Run (Parsed α)

namespace Parsed

variable {α : Type}

/-- Moves a failure back to `entry`. -/
def rewind (entry : Cursor) (parsed : Parsed α) : Parsed α :=
  parsed.mapError (·.rewind entry)

end Parsed

namespace Parser

variable {α : Type}

/-- Gives `value` and takes nothing. -/
def succeed (value : α) : Parser α := fun entry =>
  return .ok (value, entry)

/-- Reads the given units one by one, up to the first that differs or cannot be read. -/
def readUnits [DecidableEq α] (r : Reading α) (expected : List α) (cursor : Cursor) :
    Run (Except Error Cursor) :=
  match expected with
  | [] => return .ok cursor
  | unit :: rest => do
    match ← cursor.read r with
    | .error error => return .error error
    | .ok (found, next) =>
      if found = unit then readUnits r rest next else return .error .noMatch

/-- Matches exactly the given units. -/
def exactly [DecidableEq α] (r : Reading α) (expected : List α) : Parser Unit := fun entry => do
  match ← readUnits r expected entry with
  | .error error => return .error ⟨error, entry⟩
  | .ok cursor => return .ok ((), cursor)

/-- Matches one unit that satisfies a predicate. -/
def satisfying (r : Reading α) (accepts : α → Bool) : Parser α := fun entry => do
  match ← entry.read r with
  | .error error => return .error ⟨error, entry⟩
  | .ok (unit, next) =>
    if accepts unit then return .ok (unit, next) else return .error ⟨.noMatch, entry⟩

/-- Matches exactly the given text. -/
def literal (text : String) : Parser Unit :=
  exactly .runes text.toList

/-- Matches exactly the given bytes. -/
def literalBytes (bytes : List UInt8) : Parser Unit :=
  exactly .bytes bytes

/-- Matches one scalar value that satisfies a predicate. -/
def satisfy (accepts : Char → Bool) : Parser Char :=
  satisfying .runes accepts

/-- Matches one byte that satisfies a predicate. -/
def satisfyByte (accepts : UInt8 → Bool) : Parser UInt8 :=
  satisfying .bytes accepts

/-- Matches where the input ends. -/
def endOfInput : Parser Unit := fun entry => do
  match ← entry.byte with
  | .error .endOfInput => return .ok ((), entry)
  | .error error => return .error ⟨error, entry⟩
  | .ok _ => return .error ⟨.noMatch, entry⟩

end Parser
end StreamParse
