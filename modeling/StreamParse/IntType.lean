/-!
# Integer types

The bounded integer types that a parsed number may be asked to fit.  A value of such a type is kept
as an unbounded integer inside its range; arithmetic brings the exact result back into the range
and tells whether that changed it.
-/

namespace StreamParse

/-- How many bits an integer type has.  The width named `size` is that of an address, which has
64 bits. -/
inductive Width where
  | w8 | w16 | w32 | w64 | w128 | size
  deriving DecidableEq

namespace Width

def bits : Width → Nat
  | .w8 => 8
  | .w16 => 16
  | .w32 => 32
  | .w64 => 64
  | .w128 => 128
  | .size => 64

/-- How many values a type of this width has. -/
def count (w : Width) : Nat := 1 <<< w.bits

def name : Width → String
  | .size => "size"
  | w => toString w.bits

end Width

/-- A bounded integer type. -/
structure IntType where
  signed : Bool
  width : Width
  deriving DecidableEq

namespace IntType

/-- The name of the type, as messages show it: `u8`, `i32`, `usize`. -/
def name (type : IntType) : String :=
  (if type.signed then "i" else "u") ++ type.width.name

def least (type : IntType) : Int :=
  if type.signed then -(type.width.count / 2 : Nat) else 0

def greatest (type : IntType) : Int :=
  if type.signed then (type.width.count / 2 : Nat) - 1 else type.width.count - 1

/-- The value of the type that differs from `n` by a multiple of the number of its values. -/
def wrap (type : IntType) (n : Int) : Int :=
  if type.signed then n.bmod type.width.count else n % type.width.count

/-- The result of an operation whose exact result is `n`: brought back into the range, with a flag
that tells whether this changed it.  The types are closed under this, and no type is so small that
it lacks the ten or a digit; arithmetic that may have no result to go on with is left out. -/
def settle (type : IntType) (n : Int) : Int × Bool :=
  (type.wrap n, type.wrap n ≠ n)

def all : List IntType :=
  [false, true].flatMap fun signed =>
    [.w8, .w16, .w32, .w64, .w128, .size].map fun width => ⟨signed, width⟩

def ofName? (name : String) : Option IntType :=
  all.find? (·.name = name)

end IntType
end StreamParse
