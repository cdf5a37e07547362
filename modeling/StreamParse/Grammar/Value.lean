import StreamParse.Error

/-!
# Values of grammars

A grammar that is given as data yields data: numbers, texts, lists and records.  The fields of a
record are kept in the order of their labels, so that values are equal exactly when they look the
same.
-/

namespace StreamParse

/-- A value of a grammar. -/
inductive Value where
  | null
  | flag (value : Bool)
  | number (value : Int)
  | text (value : String)
  | list (items : List Value)
  | record (fields : List (String × Value))
  deriving BEq, Inhabited

namespace Value

def ofPosition (p : Position) : Value :=
  .list [.number p.offset, .number p.line, .number p.column]

def ofBytes (bytes : List UInt8) : Value :=
  .record [("hex", .text (Text.hexBytes bytes))]

/-- The bytes that a value stands for, if it stands for bytes. -/
def toBytes? : Value → Option (List UInt8)
  | .record [("hex", .text digits)] => Text.bytesOfHex? digits
  | _ => none

def ofOption : Option Value → Value
  | some value => .record [("some", value)]
  | none => .record [("none", .null)]

def ofSpan (start stop : Position) : Value :=
  .record [("end", ofPosition stop), ("start", ofPosition start)]

def tagged (tag value : Value) : Value :=
  .record [("tag", tag), ("value", value)]

/-- The number of elements of a list, or of scalar values of a text. -/
def length : Value → Value
  | .list items => .number items.length
  | .text value => .number value.length
  | _ => .null

end Value
end StreamParse
