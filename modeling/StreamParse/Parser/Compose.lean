import StreamParse.Parser.Basic

/-!
# Composed parsers

Parsers are put together one after the other, one instead of the other, and one again and again.
Whatever part of a composed parser fails, the failure is moved back to where the whole was started.
-/

namespace StreamParse.Parser

variable {α β γ : Type}

/-- Parses with `p`, then from there with what `next` makes of its value. -/
def bind (p : Parser α) (next : α → Parser β) : Parser β := fun entry => do
  match ← p entry with
  | .error failure => return .error (failure.rewind entry)
  | .ok (value, cursor) =>
    let parsed ← next value cursor
    return parsed.rewind entry

/-- Parses with `p` and then with `q`, and combines both values.  The combination may be refused,
which is an error at the entry. -/
def sequence (p : Parser α) (q : Parser β) (combine : α → β → Except Cause γ) : Parser γ :=
  fun entry => do
    match ← p entry with
    | .error failure => return .error (failure.rewind entry)
    | .ok (a, middle) =>
      match ← q middle with
      | .error failure => return .error (failure.rewind entry)
      | .ok (b, cursor) =>
        match combine a b with
        | .error cause => return .error ⟨.positioned entry.position cause, entry⟩
        | .ok value => return .ok (value, cursor)

/-- Parses with `p` and applies `f` to its value.  The one parser here that leaves a failure as it
is. -/
def map (f : α → β) (p : Parser α) : Parser β := fun entry => do
  match ← p entry with
  | .error failure => return .error failure
  | .ok (value, cursor) => return .ok (f value, cursor)

/-- Parses with `p`, or with `q` from the same place if `p` falls through. -/
def or (p q : Parser α) : Parser α := fun entry => do
  match ← p entry with
  | .ok success => return .ok success
  | .error failure =>
    if failure.error.fallsThrough then
      let parsed ← q entry
      return parsed.rewind entry
    else return .error (failure.rewind entry)

/-- Parses with `p`, or takes nothing if `p` falls through. -/
def optional (p : Parser α) : Parser (Option α) := fun entry => do
  match ← p entry with
  | .ok (value, cursor) => return .ok (some value, cursor)
  | .error failure =>
    if failure.error.fallsThrough then return .ok (none, entry)
    else return .error (failure.rewind entry)

/-- Offsets are addresses of 64 bits. -/
def offsetLimit : Nat := UInt64.size

/-- Parses with `p` from `cursor` on until it falls through, adding its values to `values`.  A value
that took no input is the last one. -/
def collect (p : Parser α) (entry : Cursor) (values : Array α) (cursor : Cursor) :
    Run (Parsed (Array α)) := do
  match ← p cursor with
  | .error failure =>
    if failure.error.fallsThrough then return .ok (values, cursor)
    else return .error (failure.rewind entry)
  | .ok (value, next) =>
    if next.position.offset ≤ cursor.position.offset then
      return .ok (values.push value, next)
    else if offsetLimit ≤ next.position.offset then
      .fault (.inconsistent .offsetOverflow)
    else collect p entry (values.push value) next
termination_by offsetLimit - cursor.position.offset

/-- Parses with `p` as often as it matches and takes input, and collects the values. -/
def many (p : Parser α) : Parser (Array α) := fun entry =>
  collect p entry #[] entry

end StreamParse.Parser
