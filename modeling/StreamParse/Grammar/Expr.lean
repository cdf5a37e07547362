import StreamParse.Grammar.Value

/-!
# Grammars as data

An expression describes a parser; a grammar gives names to expressions, which may refer to each
other by these names.
-/

namespace StreamParse

/-- A set of bytes or scalar values: what lies in one of some ranges, or what lies in none. -/
structure CodeSet where
  ranges : List (Nat × Nat)
  negated : Bool

def CodeSet.contains (set : CodeSet) (code : Nat) : Bool :=
  let inside := set.ranges.any fun (low, high) => low ≤ code && code ≤ high
  inside != set.negated

/-- How the values of a sequence are combined. -/
inductive Combination where
  | pair
  | first
  | second
  /-- Both values, which have to be the same. -/
  | same
  /-- The first value, a list, with the second at its end. -/
  | append
  /-- No values can be combined. -/
  | refuse (message : String)

/-- What is made of a single value. -/
inductive Transform where
  | wrap
  | length
  | tag (tag : Value)

/-- The reason given by a parser that always fails. -/
inductive Reason where
  | noMatch
  | endOfInput
  | invalidEncoding
  | custom (message : String)

mutual

/-- The description of a parser. -/
inductive Expr where
  | literal (text : String)
  | literalBytes (bytes : List UInt8)
  | satisfy (accepted : CodeSet)
  | satisfyByte (accepted : CodeSet)
  | bind (first : Expr) (next : Next)
  | sequence (first second : Expr) (combination : Combination)
  | map (parser : Expr) (transform : Transform)
  | or (first second : Expr)
  | optional (parser : Expr)
  | many (parser : Expr)
  | endOfInput
  | newline
  | captureText (parser : Expr)
  | captureBytes (parser : Expr)
  | capturePositions (parser : Expr)
  | digits (type : IntType)
  | signedDigits (type : IntType)
  /-- Reads up to `count` bytes and fails where that leads to. -/
  | failAfter (count : Nat) (reason : Reason)
  /-- Goes to the cursor that is kept under a name. -/
  | goto (register : String)
  /-- The expression that a grammar gives a name to. -/
  | rule (name : String)

/-- What to parse after a value. -/
inductive Next where
  /-- The same, whatever the value. -/
  | const (parser : Expr)
  /-- The same, and both values together. -/
  | pair (parser : Expr)
  /-- The value itself once more. -/
  | again
  /-- What belongs to the value. -/
  | switch (cases : Cases)
  /-- The same as many times as the value says. -/
  | times (parser : Expr)

/-- What belongs to which value; the first that fits counts. -/
inductive Cases where
  | case (value : Value) (parser : Expr) (rest : Cases)
  | otherwise (parser : Expr)

end

/-- Expressions with their names. -/
structure Grammar where
  rules : List (String × Expr)

def Grammar.rule? (grammar : Grammar) (name : String) : Option Expr :=
  grammar.rules.lookup name

end StreamParse
