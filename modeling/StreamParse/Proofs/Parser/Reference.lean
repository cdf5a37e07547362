import StreamParse.Parser.Compose
import StreamParse.Parser.Digits
import StreamParse.Proofs.Cursor.Span

/-!
# What parsers are to come to

For every parser of the library there is a reference, which says what is to come of it at a
position of a content.  References know nothing of chunks, chains and cursors.

An orderly reference takes its value from what lies after the position.  If the content ends in a
failure of the source, the reference comes to that failure, or else to what it comes to in every
content that begins with the same bytes.
-/

namespace StreamParse

namespace Reference

variable {α β γ : Type}

def succeed (value : α) : Reference α := fun _ p => .ok (.ok (value, p))

def refuse (error : Error) : Reference α := fun _ _ => .ok (.error error)

/-- A value or an error without taking anything. -/
def settle (result : Except Error α) : Reference α := fun _ p => .ok (result.map (·, p))

/-- One after the other. -/
def bind (first : Reference α) (next : α → Reference β) : Reference β := fun view p =>
  match first view p with
  | .error fault => .error fault
  | .ok (.error error) => .ok (.error error)
  | .ok (.ok (value, q)) => next value view q

/-- A reference that knows the position where it is entered. -/
def enter (next : Position → Reference α) : Reference α := fun view p => next p view p

/-- The first, or the second if the first falls through. -/
def or (first second : Reference α) : Reference α := fun view p =>
  match first view p with
  | .error fault => .error fault
  | .ok (.ok success) => .ok (.ok success)
  | .ok (.error error) => if error.fallsThrough then second view p else .ok (.error error)

def exactly [DecidableEq α] {r : Reading α} (account : r.Account) : List α → Reference Unit
  | [] => succeed ()
  | unit :: rest =>
    bind account.reference fun found =>
      if found = unit then exactly account rest else refuse .noMatch

def satisfying {r : Reading α} (account : r.Account) (accepts : α → Bool) : Reference α :=
  bind account.reference fun unit => if accepts unit then succeed unit else refuse .noMatch

def endOfInput : Reference Unit := fun view p =>
  match Reading.Account.bytes.reference view p with
  | .error fault => .error fault
  | .ok (.error error) => if error = .endOfInput then .ok (.ok ((), p)) else .ok (.error error)
  | .ok (.ok _) => .ok (.error .noMatch)

def sequence (first : Reference α) (second : Reference β) (combine : α → β → Except Cause γ) :
    Reference γ :=
  enter fun entry => bind first fun a => bind second fun b =>
    match combine a b with
    | .error cause => refuse (.positioned entry cause)
    | .ok value => succeed value

def map (f : α → β) (ref : Reference α) : Reference β := bind ref fun value => succeed (f value)

def optional (ref : Reference α) : Reference (Option α) := or (map some ref) (succeed none)

/-- Again and again, adding to `values`. -/
def collect (ref : Reference α) (values : Array α) (view : Option Content) (p : Position) :
    Outcome (Array α) :=
  match ref view p with
  | .error fault => .error fault
  | .ok (.error error) =>
    if error.fallsThrough then .ok (.ok (values, p)) else .ok (.error error)
  | .ok (.ok (value, q)) =>
    if q.offset ≤ p.offset then .ok (.ok (values.push value, q))
    else if Parser.offsetLimit ≤ q.offset then .error (.inconsistent .offsetOverflow)
    else collect ref (values.push value) view q
termination_by Parser.offsetLimit - p.offset

/-- The bytes from a position up to where the reference is entered. -/
def bytesFrom (start : Position) : Reference (Array UInt8)
  | none, _ => .error .detached
  | some content, q => .ok (.ok ((content.between start.offset q.offset).toArray, q))

/-- The text from a position up to where the reference is entered. -/
def textFrom (start : Position) : Reference String
  | none, _ => .error .detached
  | some content, q => settle (content.textBetween start q) (some content) q

def positionsFrom (start : Position) : Reference (Position × Position) :=
  fun _ q => .ok (.ok ((start, q), q))

/-- What the given reference takes, as `taken` has it. -/
def capture (taken : Position → Reference γ) (ref : Reference α) : Reference γ :=
  enter fun start => bind ref fun _ => taken start

/-- The number made up by the digits at a position. -/
def numeral (type : IntType) (negative : Bool) (entry : Position) : Reference Int :=
  fun view p =>
    match Content.passage Numeral.isDigit (Numeral.push type negative) .zero view p with
    | .error fault => .error fault
    | .ok (digits, q, error) => settle (digits.verdict type entry error) view q

def digits (type : IntType) : Reference Int := enter (numeral type false)

def signedDigits (type : IntType) : Reference Int := enter fun entry view p =>
  match Reading.Account.bytes.reference view p with
  | .error fault => .error fault
  | .ok (.ok (b, q)) =>
    if b = 0x2D then numeral type true entry view q else numeral type false entry view p
  | .ok (.error _) => numeral type false entry view p

end Reference
end StreamParse
