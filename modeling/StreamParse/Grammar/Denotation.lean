import StreamParse.Grammar.Expr
import StreamParse.Parser.Capture
import StreamParse.Parser.Compose
import StreamParse.Parser.Digits

/-!
# The parsers that grammars describe

Every expression denotes a parser, put together from the parsers its parts denote.  The parser of a
rule is made when it is reached, so rules may refer to themselves; how deep they may do so is
limited, which only a rule that comes back to itself without taking input can ever notice.
-/

namespace StreamParse

namespace Combination

def combine : Combination → Value → Value → Except Cause Value
  | .pair, a, b => .ok (.list [a, b])
  | .first, a, _ => .ok a
  | .second, _, b => .ok b
  | .same, a, b => if a == b then .ok a else .error (.custom "values differ")
  | .append, .list items, b => .ok (.list (items ++ [b]))
  | .append, _, _ => .error (.custom "not a list")
  | .refuse message, _, _ => .error (.custom message)

end Combination

def Transform.apply : Transform → Value → Value
  | .wrap, value => .list [value]
  | .length, value => value.length
  | .tag label, value => .tagged label value

def Reason.error (position : Position) : Reason → Error
  | .noMatch => .noMatch
  | .endOfInput => .endOfInput
  | .invalidEncoding => .invalidEncoding position
  | .custom message => .positioned position (.custom message)

namespace Parser

/-- Reads up to `count` bytes, or as far as that goes, and fails there. -/
def failAfter {α : Type} (count : Nat) (reason : Reason) : Parser α := fun entry => do
  let traversal ← entry.readUpTo .bytes (some count)
  return .error ⟨reason.error traversal.cursor.position, traversal.cursor⟩

/-- Takes the input up to a cursor, wherever that stands. -/
def goto (cursor : Cursor) : Parser Unit := fun _ =>
  return .ok ((), cursor)

/-- Matches a value once more, as it stands in the input. -/
def again : Value → Parser Value
  | .text text => (literal text).map fun _ => .null
  | .number code => (literal (Char.ofNat code.toNat).toString).map fun _ => .null
  | value =>
    match value.toBytes? with
    | some bytes => (literalBytes bytes).map fun _ => .null
    | none => fun _ => .fault (.undefined "literal")

/-- Parses `count` times with `p`, and lists the values. -/
def times (p : Parser Value) : (count : Nat) → Parser Value
  | 0 => succeed (.list [])
  | count + 1 => sequence (times p count) p Combination.append.combine

end Parser

/-- What the names in an expression stand for. -/
structure Scope where
  rule : String → Parser Value
  register : String → Option Cursor

mutual

/-- The parser that an expression describes. -/
def Expr.parser (scope : Scope) : Expr → Parser Value
  | .literal text => (Parser.literal text).map fun _ => .null
  | .literalBytes bytes => (Parser.literalBytes bytes).map fun _ => .null
  | .satisfy accepted =>
    (Parser.satisfy fun c => accepted.contains c.toNat).map fun c => .number c.toNat
  | .satisfyByte accepted =>
    (Parser.satisfyByte fun b => accepted.contains b.toNat).map fun b => .number b.toNat
  | .bind first next => Parser.bind (first.parser scope) (next.parser scope)
  | .sequence first second combination =>
    Parser.sequence (first.parser scope) (second.parser scope) combination.combine
  | .map parser transform => (parser.parser scope).map transform.apply
  | .or first second => Parser.or (first.parser scope) (second.parser scope)
  | .optional parser => (Parser.optional (parser.parser scope)).map Value.ofOption
  | .many parser => (Parser.many (parser.parser scope)).map fun items => .list items.toList
  | .endOfInput => Parser.endOfInput.map fun _ => .null
  | .newline => Parser.newline.map fun _ => .null
  | .captureText parser => (Parser.captureText (parser.parser scope)).map Value.text
  | .captureBytes parser =>
    (Parser.captureBytes (parser.parser scope)).map fun bytes => .ofBytes bytes.toList
  | .capturePositions parser =>
    (Parser.capturePositions (parser.parser scope)).map fun (start, stop) => .ofSpan start stop
  | .digits type => (Parser.asciiDigits type).map fun n => .text (toString n)
  | .signedDigits type => (Parser.signedAsciiDigits type).map fun n => .text (toString n)
  | .failAfter count reason => Parser.failAfter count reason
  | .goto register =>
    match scope.register register with
    | some cursor => (Parser.goto cursor).map fun _ => .null
    | none => fun _ => .fault (.undefined register)
  | .rule name => scope.rule name

def Next.parser (scope : Scope) : Next → Value → Parser Value
  | .const parser, _ => parser.parser scope
  | .pair parser, value => (parser.parser scope).map fun later => .list [value, later]
  | .again, value => Parser.again value
  | .switch cases, value => cases.parser scope value
  | .times parser, .text count => Parser.times (parser.parser scope) (count.toNat?.getD 0)
  | .times _, _ => fun _ => .fault (.undefined "count")

def Cases.parser (scope : Scope) : Cases → Value → Parser Value
  | .case expected parser rest, value =>
    if value == expected then parser.parser scope else rest.parser scope value
  | .otherwise parser, _ => parser.parser scope

end

namespace Grammar

/-- How deep rules may refer to each other. -/
def maxDepth : Nat := 1000000

/-- The parser of a rule, with at most `depth` rules inside each other. -/
def ruleParser (grammar : Grammar) (register : String → Option Cursor) :
    (depth : Nat) → String → Parser Value
  | 0, _ => fun _ => .fault .endless
  | depth + 1, name => fun entry =>
    match grammar.rule? name with
    | none => .fault (.undefined name)
    | some expr => expr.parser ⟨grammar.ruleParser register depth, register⟩ entry

/-- The parser that an expression describes when its names are those of a grammar and of some
registers. -/
def parser (grammar : Grammar) (register : String → Option Cursor) (expr : Expr) : Parser Value :=
  expr.parser ⟨grammar.ruleParser register maxDepth, register⟩

end Grammar
end StreamParse
