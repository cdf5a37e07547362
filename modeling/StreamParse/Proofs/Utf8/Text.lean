import Mathlib.Tactic.IntervalCases
import StreamParse.Proofs.Utf8

/-!
# Texts in byte strings

No encoding of a scalar value begins another one.  So a byte string is read as text in one way only:
all texts that it begins with are beginnings of a longest one.  The longest text is determined by
the string as a whole, but it ends where no encoding goes on, and so it can be found sequence after
sequence.
-/

namespace StreamParse.Utf8

variable {bytes rest more : List UInt8} {text other : List Char} {c d : Char}

/-- Of all texts that a byte string begins with, one whose encoding is longest. -/
structure Longest (bytes : List UInt8) (text : List Char) : Prop where
  isPrefix : encode text <+: bytes
  length_le : ∀ other, encode other <+: bytes → (encode other).length ≤ (encode text).length

/-- A byte string begins with one encoding at most. -/
theorem eq_of_isPrefix
    (h : String.utf8EncodeChar c <+: bytes) (h' : String.utf8EncodeChar d <+: bytes) : c = d := by
  have hscalar := classify_eq_scalar_iff.2 h
  rw [classify_eq_scalar_iff.2 h'] at hscalar
  exact (Verdict.scalar.inj hscalar).symm

theorem not_isPrefix_nil (c : Char) : ¬ String.utf8EncodeChar c <+: [] := by
  rw [← classify_eq_scalar_iff]
  simp

theorem encode_append (text other : List Char) :
    encode (text ++ other) = encode text ++ encode other := by
  rw [encode, List.flatMap_append]
  rfl

theorem isPrefix_of_encode_isPrefix
    (hrest : ∀ c, ¬ String.utf8EncodeChar c <+: rest)
    (h : encode other <+: encode text ++ rest) : other <+: text := by
  induction other generalizing text with
  | nil => exact List.nil_prefix
  | cons d other ih =>
      rw [encode_cons] at h
      cases text with
      | nil => exact absurd ((List.prefix_append _ _).trans h) (hrest d)
      | cons c text =>
          rw [encode_cons, List.append_assoc] at h
          obtain rfl : d = c :=
            eq_of_isPrefix ((List.prefix_append _ _).trans h) (List.prefix_append _ _)
          exact List.cons_prefix_cons.2 ⟨rfl, ih ((List.prefix_append_right_inj _).1 h)⟩

/-- Encodings begin each other as their texts do. -/
theorem encode_isPrefix_iff : encode other <+: encode text ↔ other <+: text := by
  constructor
  · intro h
    rw [← List.append_nil (encode text)] at h
    exact isPrefix_of_encode_isPrefix not_isPrefix_nil h
  · rintro ⟨tail, rfl⟩
    rw [encode_append]
    exact List.prefix_append _ _

/-! ## The longest text -/

/-- A text is the longest one exactly if no encoding goes on after it. -/
theorem longest_iff :
    Longest bytes text ↔
      ∃ rest, encode text ++ rest = bytes ∧ ∀ c, ¬ String.utf8EncodeChar c <+: rest := by
  constructor
  · rintro ⟨⟨rest, hrest⟩, hlongest⟩
    refine ⟨rest, hrest, ?_⟩
    intro c hc
    have henc : encode (text ++ [c]) = encode text ++ String.utf8EncodeChar c := by
      rw [encode_append, encode_cons, encode_nil, List.append_nil]
    have hlength := hlongest (text ++ [c]) (by
      rw [henc, ← hrest]
      exact (List.prefix_append_right_inj _).2 hc)
    have hpos := c.utf8Size_pos
    rw [henc, List.length_append, String.length_utf8EncodeChar] at hlength
    omega
  · rintro ⟨rest, rfl, hrest⟩
    refine ⟨List.prefix_append _ _, ?_⟩
    intro other hother
    exact (encode_isPrefix_iff.2 (isPrefix_of_encode_isPrefix hrest hother)).length_le

theorem longest_nil_iff : Longest bytes [] ↔ ∀ c, ¬ String.utf8EncodeChar c <+: bytes := by
  rw [longest_iff]
  simp

/-- Decoding finds the longest text. -/
theorem longest_of_decode (h : decode bytes = (text, rest)) : Longest bytes text :=
  longest_iff.2 ⟨rest, encode_append_of_decode h, not_isPrefix_of_decode h⟩

theorem exists_longest (bytes : List UInt8) : ∃ text, Longest bytes text := by
  rcases hdecode : decode bytes with ⟨text, rest⟩
  exact ⟨text, longest_of_decode hdecode⟩

namespace Longest

/-- The texts that a byte string begins with are the beginnings of the longest one. -/
theorem encode_isPrefix_iff (h : Longest bytes text) :
    encode other <+: bytes ↔ other <+: text := by
  obtain ⟨rest, rfl, hrest⟩ := longest_iff.1 h
  constructor
  · exact isPrefix_of_encode_isPrefix hrest
  · intro hother
    exact (Utf8.encode_isPrefix_iff.2 hother).trans (List.prefix_append _ _)

theorem eq (h : Longest bytes text) (h' : Longest bytes other) : text = other :=
  (h'.encode_isPrefix_iff.1 h.isPrefix).eq_of_length_le
    (h.encode_isPrefix_iff.1 h'.isPrefix).length_le

end Longest

theorem longest_encode (text : List Char) : Longest (encode text) text :=
  longest_iff.2 ⟨[], List.append_nil _, not_isPrefix_nil⟩

theorem decode_eq_nil_iff : decode bytes = (text, []) ↔ encode text = bytes := by
  constructor
  · intro h
    rw [← encode_append_of_decode h, List.append_nil]
  · rintro rfl
    rcases hdecode : decode (encode text) with ⟨other, rest⟩
    obtain rfl := (longest_of_decode hdecode).eq (longest_encode text)
    have hrest := encode_append_of_decode hdecode
    rw [List.append_right_eq_self] at hrest
    rw [hrest]

/-! ## Malformed sequences -/

/-- The last `count` bytes of a number, six bits each. -/
def continuation : (count value : Nat) → List UInt8
  | 0, _ => []
  | count + 1, value => UInt8.ofNat (0x80 + value / 64 ^ count % 64) :: continuation count value

/-- A number in `width` bytes, without regard to what is a scalar value and which width it needs.
The first byte has as many leading ones as there are bytes. -/
def form (width value : Nat) : List UInt8 :=
  UInt8.ofNat (0x100 - 2 ^ (8 - width) + value / 64 ^ (width - 1)) ::
    continuation (width - 1) value

/-- How many numbers there are room for in `width` bytes. -/
def capacity (width : Nat) : Nat :=
  if width = 1 then 0x80 else 2 ^ (5 * width + 1)

/-- Sequences that look like an encoding but are none. -/
inductive Misencoded : List UInt8 → Prop
  /-- The number has room in fewer bytes. -/
  | overlong {width value : Nat} :
    2 ≤ width → width ≤ 6 → value < capacity (width - 1) → Misencoded (form width value)
  | surrogate {value : Nat} : 0xD800 ≤ value → value < 0xE000 → Misencoded (form 3 value)
  /-- The number lies beyond the last scalar value. -/
  | outOfRange {width value : Nat} :
    4 ≤ width → width ≤ 6 → 0x110000 ≤ value → value < capacity width →
      Misencoded (form width value)

/-- The beginning of an encoding is cut off: the input ends, or goes on with a byte that can only be
the first one of a sequence. -/
structure Truncated (bytes more : List UInt8) : Prop where
  ne_nil : bytes ≠ []
  begins : ∃ c, bytes <+: String.utf8EncodeChar c ∧ bytes ≠ String.utf8EncodeChar c
  cut : ∀ b ∈ more.head?, b.toNat < 0x80 ∨ 0xC0 ≤ b.toNat

/-- If an encoding has the form of a number, it is the encoding of that number, which needs its
width. -/
theorem of_isPrefix_form
    {width value : Nat} (hwidth : 2 ≤ width) (hwidth' : width ≤ 6) (hvalue : value < capacity width)
    (h : String.utf8EncodeChar c <+: form width value ++ more) :
    c.val.toNat = value ∧ capacity (width - 1) ≤ value := by
  have hcases := utf8EncodeChar_cases c
  generalize c.val.toNat = v at hcases ⊢
  -- The first byte tells the width, and then all bytes together tell the number.
  rcases hcases with
    ⟨hv, b₀, henc, h₀⟩ | ⟨hv, hv', b₀, b₁, henc, h₀, h₁⟩ |
    ⟨hv, hv', b₀, b₁, b₂, henc, h₀, h₁, h₂⟩ | ⟨hv, hv', b₀, b₁, b₂, b₃, henc, h₀, h₁, h₂, h₃⟩
  all_goals
    rw [henc] at h
    interval_cases width <;>
      simp only [form, continuation, capacity, List.cons_append, List.cons_prefix_cons,
        ← UInt8.toNat_inj, UInt8.toNat_ofNat', Nat.reduceSub, Nat.reducePow, Nat.reduceMul,
        Nat.reduceAdd, Nat.reduceEqDiff, if_true, if_false] at h hvalue ⊢ <;>
      omega

theorem Misencoded.not_isPrefix (h : Misencoded bytes) (more : List UInt8) (c : Char) :
    ¬ String.utf8EncodeChar c <+: bytes ++ more := by
  intro hprefix
  have hvalid : c.val.toNat < 0xD800 ∨ 0xDFFF < c.val.toNat ∧ c.val.toNat < 0x110000 :=
    c.valid
  cases h with
  | @overlong width value hwidth hwidth' hvalue =>
      have hroom : capacity (width - 1) ≤ capacity width := by
        interval_cases width <;> simp [capacity]
      obtain ⟨-, hneeds⟩ := of_isPrefix_form hwidth hwidth' (by omega) hprefix
      omega
  | @surrogate value hlow hhigh =>
      have hroom : value < capacity 3 := Nat.lt_trans hhigh (by simp [capacity])
      obtain ⟨heq, -⟩ := of_isPrefix_form (by omega) (by omega) hroom hprefix
      omega
  | @outOfRange width value hwidth hwidth' hlow hhigh =>
      obtain ⟨heq, -⟩ := of_isPrefix_form (by omega) hwidth' hhigh hprefix
      omega

example : form 3 0xD800 = [0xED, 0xA0, 0x80] := by decide

theorem of_mem_tail {b : UInt8} (h : b ∈ (String.utf8EncodeChar c).tail) :
    0x80 ≤ b.toNat ∧ b.toNat < 0xC0 := by
  rcases utf8EncodeChar_cases c with
    ⟨-, b₀, henc, -⟩ | ⟨-, -, b₀, b₁, henc, -, h₁⟩ | ⟨-, -, b₀, b₁, b₂, henc, -, h₁, h₂⟩ |
    ⟨-, -, b₀, b₁, b₂, b₃, henc, -, h₁, h₂, h₃⟩
  all_goals
    rw [henc] at h
    simp only [List.tail_cons, List.mem_cons, List.not_mem_nil, or_false] at h
  · rw [h]
    omega
  · rcases h with rfl | rfl <;> omega
  · rcases h with rfl | rfl | rfl <;> omega

theorem Truncated.not_isPrefix (h : Truncated bytes more) (c : Char) :
    ¬ String.utf8EncodeChar c <+: bytes ++ more := by
  intro hprefix
  have hopen := classify_eq_incomplete_iff.2 h.begins
  rcases List.prefix_or_prefix_of_prefix hprefix (List.prefix_append bytes more) with
    hwithin | ⟨tail, htail⟩
  · rw [classify_eq_scalar_iff.2 hwithin] at hopen
    cases hopen
  · cases tail with
    | nil =>
        rw [List.append_nil] at htail
        rw [htail, classify_utf8EncodeChar] at hopen
        cases hopen
    | cons b tail =>
        -- The byte after what is there belongs to the encoding and is not its first one.
        rw [← htail, List.prefix_append_right_inj] at hprefix
        obtain ⟨rest, rfl⟩ := hprefix
        obtain ⟨b₀, bytes, rfl⟩ := List.exists_cons_of_ne_nil h.ne_nil
        have hmem : b ∈ (String.utf8EncodeChar c).tail := by
          rw [← htail]
          simp
        have hcontinues := of_mem_tail hmem
        have hcut := h.cut b rfl
        omega

/-- Where a text is followed by a sequence that is misencoded or cut off, it is the longest text,
and the byte string is not valid. -/
theorem longest_of_malformed {bad : List UInt8} (h : Misencoded bad ∨ Truncated bad more) :
    Longest (encode text ++ (bad ++ more)) text ∧ encode text ≠ encode text ++ (bad ++ more) := by
  have hbad : ∀ c, ¬ String.utf8EncodeChar c <+: bad ++ more := by
    rcases h with h | h
    · exact h.not_isPrefix more
    · exact h.not_isPrefix
  have hne : bad ≠ [] := by
    rcases h with h | h
    · cases h <;> simp [form]
    · exact h.ne_nil
  refine ⟨longest_iff.2 ⟨_, rfl, hbad⟩, ?_⟩
  simp [hne]

end StreamParse.Utf8
