import StreamParse.Parser.Compose

/-!
# Numbers and line breaks

A decimal number is computed in the integer type it is asked to fit, digit by digit.  Once a step
has left the range of the type, the number is known not to fit, whatever the digits after it make
of the wrapped value.  Negative numbers are counted downwards from zero, so the least value of a
type is reached without passing through a number that does not fit.
-/

namespace StreamParse

/-- The part of a number that its digits so far make up. -/
structure Numeral where
  value : Int
  /-- Whether a step has left the range of the type. -/
  overflowed : Bool
  /-- The number of digits. -/
  count : Nat

namespace Numeral

def zero : Numeral := ⟨0, false, 0⟩

def isDigit (b : UInt8) : Bool :=
  0x30 ≤ b.toNat && b.toNat ≤ 0x39

/-- One more digit, counted upwards or downwards.  All types hold ten and every digit, so the step
can always be made. -/
def push (type : IntType) (negative : Bool) (numeral : Numeral) (b : UInt8) : Numeral :=
  let digit : Int := b.toNat - 0x30
  let (shifted, tooLarge) := type.settle (numeral.value * 10)
  let (value, tooFar) :=
    type.settle (if negative then shifted - digit else shifted + digit)
  ⟨value, numeral.overflowed || tooLarge || tooFar, numeral.count + 1⟩

/-- The number that the digits make up when `error` ended them, or why there is none.  That the
input ended is no reason. -/
def verdict (type : IntType) (entry : Position) (error : Option Error) (numeral : Numeral) :
    Except Error Int :=
  match error.filter fun error => !error.isEndOfInput with
  | some error => .error error
  | none =>
    if numeral.count = 0 then .error .noMatch
    else if numeral.overflowed then .error (.positioned entry (.overflow type))
    else .ok numeral.value

end Numeral

namespace Parser

/-- The number made up by the digits from `start` on.  A failure goes back to `entry`. -/
def numeral (type : IntType) (negative : Bool) (entry start : Cursor) : Run (Parsed Int) := do
  let digits ← start.readWhile .bytes Numeral.isDigit (Numeral.push type negative) .zero
  match digits.gathered.verdict type entry.position digits.error with
  | .error error => return .error ⟨error, entry⟩
  | .ok value => return .ok (value, digits.cursor)

/-- One or more ASCII digits, as a number of the given type. -/
def asciiDigits (type : IntType) : Parser Int := fun entry =>
  numeral type false entry entry

/-- One or more ASCII digits after at most one minus sign, as a number of the given type.  Whatever
keeps the first byte from being read keeps the first digit from being read. -/
def signedAsciiDigits (type : IntType) : Parser Int := fun entry => do
  match ← entry.byte with
  | .ok (b, next) =>
    if b = 0x2D then numeral type true entry next else numeral type false entry entry
  | .error _ => numeral type false entry entry

/-- A line break, with or without a carriage return. -/
def newline : Parser Unit :=
  or (literal "\n") (literal "\r\n")

end Parser
end StreamParse
