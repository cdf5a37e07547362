/-!
# UTF-8

The first sequence of a byte string is decided from its bytes alone, from left to right: the first
byte fixes how many continuation bytes follow and which values the first of them may take.  These
ranges are exactly what keeps out overlong forms, surrogates and values beyond `U+10FFFF`, so a
sequence is known to be malformed at its first wrong byte, and one that merely ends too early is
told apart from one that can no longer become valid.
-/

namespace StreamParse.Utf8

/-- What the bytes at hand say about the first sequence of an input. -/
inductive Verdict where
  /-- They begin with the encoding of a scalar value. -/
  | scalar (c : Char)
  /-- They are too few to tell: the beginning of some encoding, or nothing at all. -/
  | incomplete
  /-- No encoding begins like this. -/
  | malformed
  deriving DecidableEq

/-- The longest encoding of a scalar value has four bytes. -/
def maxWidth : Nat := 4

/-- What a first byte promises. -/
structure Lead where
  /-- Number of continuation bytes. -/
  missing : Nat
  /-- Least value of the first continuation byte. -/
  low : Nat
  /-- Greatest value of the first continuation byte. -/
  high : Nat
  /-- The bits of the scalar value held by the first byte. -/
  bits : Nat

/-- The promise of a first byte, if any encoding begins with it. -/
def Lead.ofByte? (b : UInt8) : Option Lead :=
  let n := b.toNat
  if n < 0x80 then some ⟨0, 0x80, 0xBF, n⟩
  else if n < 0xC2 then none
  else if n < 0xE0 then some ⟨1, 0x80, 0xBF, n - 0xC0⟩
  else if n = 0xE0 then some ⟨2, 0xA0, 0xBF, n - 0xE0⟩
  else if n = 0xED then some ⟨2, 0x80, 0x9F, n - 0xE0⟩
  else if n < 0xF0 then some ⟨2, 0x80, 0xBF, n - 0xE0⟩
  else if n = 0xF0 then some ⟨3, 0x90, 0xBF, n - 0xF0⟩
  else if n < 0xF4 then some ⟨3, 0x80, 0xBF, n - 0xF0⟩
  else if n = 0xF4 then some ⟨3, 0x80, 0x8F, n - 0xF0⟩
  else none

/-- Takes the `missing` continuation bytes, the first of them between `low` and `high`, and adds
six bits of each to `bits`. -/
def resume : (missing low high bits : Nat) → List UInt8 → Verdict
  | 0, _, _, bits, _ => .scalar (Char.ofNat bits)
  | _ + 1, _, _, _, [] => .incomplete
  | missing + 1, low, high, bits, b :: rest =>
    if low ≤ b.toNat ∧ b.toNat ≤ high then
      resume missing 0x80 0xBF (bits * 64 + (b.toNat - 0x80)) rest
    else .malformed

/-- Decides the first sequence of `bytes`. -/
def classify : List UInt8 → Verdict
  | [] => .incomplete
  | b :: rest =>
    match Lead.ofByte? b with
    | none => .malformed
    | some lead => resume lead.missing lead.low lead.high lead.bits rest

@[simp] theorem classify_nil : classify [] = .incomplete := rfl

theorem ne_nil_of_classify_eq_scalar {bytes : List UInt8} {c : Char}
    (h : classify bytes = .scalar c) : bytes ≠ [] := by
  rintro rfl
  simp at h

/-- Fewer bytes are left after a decided sequence. -/
theorem length_sub_lt_of_classify_eq_scalar {bytes : List UInt8} {c : Char}
    (h : classify bytes = .scalar c) :
    bytes.length - c.utf8Size < bytes.length := by
  have hlen := List.length_pos_iff.2 (ne_nil_of_classify_eq_scalar h)
  have hpos := c.utf8Size_pos
  omega

/-- The scalar values of the longest well-formed beginning of `bytes`, and the bytes after it. -/
def decode (bytes : List UInt8) : List Char × List UInt8 :=
  match h : classify bytes with
  | .scalar c =>
    have := length_sub_lt_of_classify_eq_scalar h
    let (text, rest) := decode (bytes.drop c.utf8Size)
    (c :: text, rest)
  | _ => ([], bytes)
termination_by bytes.length

/-- The encoding of a text. -/
def encode (text : List Char) : List UInt8 :=
  text.flatMap String.utf8EncodeChar

end StreamParse.Utf8
