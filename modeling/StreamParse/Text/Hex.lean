/-!
# Hexadecimal text

Bytes are written as two lower-case hexadecimal digits each.
-/

namespace StreamParse.Text

/-- Lower-case hexadecimal digits without leading zeros. -/
def hex (n : Nat) : String :=
  String.ofList (Nat.toDigits 16 n)

def hexByte (b : UInt8) : String :=
  if b.toNat < 16 then "0" ++ hex b.toNat else hex b.toNat

def hexBytes (bytes : List UInt8) : String :=
  String.join (bytes.map hexByte)

def hexDigit? (c : Char) : Option Nat :=
  if '0' ≤ c ∧ c ≤ '9' then some (c.toNat - '0'.toNat)
  else if 'a' ≤ c ∧ c ≤ 'f' then some (c.toNat - 'a'.toNat + 10)
  else none

/-- The bytes written by pairs of digits. -/
def bytesOfDigits? : List Char → Option (List UInt8)
  | [] => some []
  | [_] => none
  | high :: low :: rest => do
    let h ← hexDigit? high
    let l ← hexDigit? low
    let bytes ← bytesOfDigits? rest
    return UInt8.ofNat (h * 16 + l) :: bytes

/-- The bytes written by hexadecimal text. -/
def bytesOfHex? (text : String) : Option (List UInt8) :=
  bytesOfDigits? text.toList

end StreamParse.Text
