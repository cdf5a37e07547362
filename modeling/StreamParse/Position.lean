import StreamParse.Text.Record

/-!
# Positions

A position says how many bytes of an input were consumed, and in which line and column the next
unit stands.  A unit is whatever is read at once, a byte or a scalar value, so the column depends
on how the line was read while the offset and the line do not.
-/

namespace StreamParse

/-- A place in an input. -/
structure Position where
  /-- Bytes consumed since the start of the input. -/
  offset : Nat
  /-- The line of the next unit, counted from one. -/
  line : Nat
  /-- The column of the next unit, counted from one. -/
  column : Nat
  deriving DecidableEq

namespace Position

def start : Position := ⟨0, 1, 1⟩

instance : Inhabited Position := ⟨start⟩

/-- The code of the line feed, the same for the byte and for the scalar value. -/
def lineFeed : Nat := 0x0A

/-- The position after a unit of `width` bytes whose code is `unit`.  A line feed opens the next
line, any other unit takes one column. -/
def advance (p : Position) (width unit : Nat) : Position :=
  if unit = lineFeed then ⟨p.offset + width, p.line + 1, 1⟩
  else ⟨p.offset + width, p.line, p.column + 1⟩

@[simp] theorem offset_advance (p : Position) (width unit : Nat) :
    (p.advance width unit).offset = p.offset + width := by
  unfold advance
  split <;> rfl

/-- Positions are ordered by offset, then by line, then by column. -/
instance : Ord Position where
  compare a b :=
    (compare a.offset b.offset).then
      ((compare a.line b.line).then (compare a.column b.column))

/-- The later of two positions. -/
instance : Max Position where
  max a b := if compare a b = .gt then a else b

/-- The form for readers of messages: line and column with a colon between them. -/
def display (p : Position) : String :=
  toString p.line ++ ":" ++ toString p.column

def describe (p : Position) : String :=
  Text.record "Position"
    [("offset", toString p.offset), ("line", toString p.line), ("column", toString p.column)]

end Position
end StreamParse
