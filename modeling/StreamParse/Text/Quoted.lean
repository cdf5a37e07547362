import StreamParse.Text.Hex
import StreamParse.Text.Visible
import StreamParse.Utf8

/-!
# Quoted text

Diagnostics show input between double quotes and on one line: whatever is not visible is escaped.
Input that is not text is shown as far as it can be, and byte by byte where it cannot.
-/

namespace StreamParse.Text

/-- The decisions in which ways of quoting differ. -/
structure Quoting where
  /-- Whether the apostrophe is escaped. -/
  apostrophe : Bool
  /-- Whether the controls of ASCII are shown like bytes. -/
  controlsAsBytes : Bool

/-- Text is quoted with as few escapes as possible. -/
def Quoting.text : Quoting := ⟨false, false⟩

/-- Input is quoted so that its bytes can be made out. -/
def Quoting.input : Quoting := ⟨true, true⟩

def escapeByte (b : UInt8) : String :=
  "\\x" ++ hexByte b

def escapeCode (n : Nat) : String :=
  "\\u\x7b" ++ hex n ++ "\x7d"

/-- A character as it stands between quotes. -/
def escape (quoting : Quoting) (c : Char) : String :=
  if c = '\x00' then "\\0"
  else if c = '\t' then "\\t"
  else if c = '\n' then "\\n"
  else if c = '\r' then "\\r"
  else if c = '\\' then "\\\\"
  else if c = '\x22' then "\\\""
  else if c = '\x27' ∧ quoting.apostrophe then "\\\x27"
  else if isVisible c then c.toString
  else if c.toNat < 0x80 ∧ quoting.controlsAsBytes then escapeByte c.toUInt8
  else escapeCode c.toNat

/-- Text between quotes. -/
def quote (text : String) : String :=
  "\"" ++ String.join (text.toList.map (escape .text)) ++ "\""

/-- Bytes as they stand between quotes, sequence by sequence. -/
def escapeInput : List UInt8 → List String
  | [] => []
  | b :: rest =>
    match h : Utf8.classify (b :: rest) with
    | .scalar c =>
      have := Utf8.length_sub_lt_of_classify_eq_scalar h
      escape .input c :: escapeInput ((b :: rest).drop c.utf8Size)
    | _ => escapeByte b :: escapeInput rest
termination_by bytes => bytes.length

/-- Input between quotes. -/
def quoteInput (bytes : List UInt8) : String :=
  "\"" ++ String.join (escapeInput bytes) ++ "\""

end StreamParse.Text
