import Mathlib.Data.List.Induction
import StreamParse.Parser.Digits
import StreamParse.Proofs.Utf8.Text

/-!
# Numerals and the numbers they stand for

Digits stand for a number without bounds.  Counted up, or down for a negative number, it comes
nearer to a bound of the type with every digit and never turns back.  So as long as the number of
all digits fits the type, so did that of the digits before, and every step was exact.  Once a step
was not, no number of more digits fits, and the flag that tells so stays where it is, whatever the
wrapped value is by then.
-/

namespace StreamParse

namespace Width

/-- Every width has values, and an even number of them. -/
theorem half_pos (w : Width) : 0 < w.count / 2 := by
  cases w
  all_goals decide

theorem two_mul_half (w : Width) : 2 * (w.count / 2) = w.count := by
  cases w
  all_goals decide

end Width

namespace IntType

variable {type : IntType} {m n : Int}

def Fits (type : IntType) (n : Int) : Prop :=
  type.least ≤ n ∧ n ≤ type.greatest

instance : Decidable (type.Fits n) :=
  inferInstanceAs (Decidable (type.least ≤ n ∧ n ≤ type.greatest))

/-- A result is kept as it is exactly if the type has it as a value. -/
theorem wrap_eq_iff : type.wrap n = n ↔ type.Fits n := by
  obtain ⟨signed, width⟩ := type
  have hpos := width.half_pos
  have heven := width.two_mul_half
  generalize hhalf : width.count / 2 = half at hpos heven
  cases signed with
  | true =>
      have hbalanced : n.bmod width.count = n ↔ -half ≤ n ∧ n < half := by
        have hdvd : (width.count : Int) ∣ 0 := Int.dvd_zero _
        rw [Int.bmod_eq_iff (by omega), Int.sub_self]
        omega
      simp only [wrap, Fits, least, greatest, if_true, hhalf, hbalanced]
      omega
  | false =>
      simp only [wrap, Fits, least, greatest, Bool.false_eq_true, if_false]
      constructor
      · intro hsame
        have hnonneg := Int.emod_nonneg n (b := width.count) (by omega)
        have hlt := Int.emod_lt_of_pos n (b := width.count) (by omega)
        omega
      · rintro ⟨hle, hge⟩
        exact Int.emod_eq_of_lt hle (by omega)

theorem settle_of_fits (h : type.Fits n) : type.settle n = (n, false) := by
  have hwrap := wrap_eq_iff.2 h
  simp [settle, hwrap]

theorem settle_of_not_fits (h : ¬ type.Fits n) : (type.settle n).2 = true := by
  have hwrap := wrap_eq_iff.not.2 h
  simp [settle, hwrap]

theorem fits_zero (type : IntType) : type.Fits 0 := by
  obtain ⟨signed, width⟩ := type
  have hpos := width.half_pos
  have heven := width.two_mul_half
  cases signed with
  | true =>
      simp only [Fits, least, greatest, if_true]
      omega
  | false =>
      simp only [Fits, least, greatest, Bool.false_eq_true, if_false]
      omega

theorem Fits.of_between
    (h : type.Fits n) (hbetween : 0 ≤ m ∧ m ≤ n ∨ n ≤ m ∧ m ≤ 0) : type.Fits m := by
  have hzero := type.fits_zero
  simp only [Fits] at h hzero ⊢
  omega

/-- No number counted upwards is too small. -/
theorem fits_natCast_iff (n : Nat) : type.Fits n ↔ (n : Int) ≤ type.greatest := by
  have hzero := type.fits_zero
  simp only [Fits] at hzero ⊢
  omega

/-- No number counted downwards is too large. -/
theorem fits_neg_natCast_iff (n : Nat) : type.Fits (-n) ↔ type.least ≤ -n := by
  have hzero := type.fits_zero
  simp only [Fits] at hzero ⊢
  omega

end IntType

namespace Numeral

def number (digits : List UInt8) : Nat :=
  digits.foldl (fun n b => 10 * n + (b.toNat - 0x30)) 0

/-- A number, or what is as far below zero. -/
def signed (negative : Bool) (n : Nat) : Int :=
  if negative then -n else n

theorem number_concat (digits : List UInt8) (b : UInt8) :
    number (digits ++ [b]) = 10 * number digits + (b.toNat - 0x30) := by
  rw [number, List.foldl_append]
  rfl

theorem isDigit_iff {b : UInt8} : isDigit b = true ↔ 0x30 ≤ b.toNat ∧ b.toNat ≤ 0x39 := by
  simp [isDigit]

variable {type : IntType} {negative : Bool} {numeral : Numeral} {digits : List UInt8} {b : UInt8}

/-- What a numeral tells about the digits that made it up: how many they are, whether their number
fits the type, and if so, this number. -/
structure Tells (type : IntType) (negative : Bool) (digits : List UInt8) (numeral : Numeral) :
    Prop where
  count : numeral.count = digits.length
  overflowed : numeral.overflowed = false ↔ type.Fits (signed negative (number digits))
  value : numeral.overflowed = false → numeral.value = signed negative (number digits)

theorem tells_zero (type : IntType) (negative : Bool) : zero.Tells type negative [] := by
  have hzero : signed negative (number []) = 0 := by
    cases negative <;> rfl
  refine ⟨rfl, ?_, ?_⟩
  · rw [hzero]
    exact iff_of_true rfl type.fits_zero
  · rw [hzero]
    intro _
    rfl

/-- One more digit is counted in the direction of the sign. -/
theorem signed_number_concat (negative : Bool) (digits : List UInt8) (hb : isDigit b = true) :
    signed negative (number (digits ++ [b])) =
      if negative then signed negative (number digits) * 10 - (b.toNat - 0x30)
      else signed negative (number digits) * 10 + (b.toNat - 0x30) := by
  obtain ⟨hle, -⟩ := isDigit_iff.1 hb
  rw [number_concat]
  cases negative with
  | true =>
      simp only [signed, if_true]
      omega
  | false =>
      simp only [signed, Bool.false_eq_true, if_false]
      omega

/-- With one more digit the number is further from zero, and shifting it comes between. -/
theorem fits_before (hb : isDigit b = true)
    (h : type.Fits (signed negative (number (digits ++ [b])))) :
    type.Fits (signed negative (number digits)) ∧
      type.Fits (signed negative (number digits) * 10) := by
  obtain ⟨hle, -⟩ := isDigit_iff.1 hb
  rw [signed_number_concat negative digits hb] at h
  cases negative with
  | true =>
      simp only [signed, if_true] at h ⊢
      exact ⟨h.of_between (Or.inr (by omega)), h.of_between (Or.inr (by omega))⟩
  | false =>
      simp only [signed, Bool.false_eq_true, if_false] at h ⊢
      exact ⟨h.of_between (Or.inl (by omega)), h.of_between (Or.inl (by omega))⟩

theorem push_of_fits
    (h : numeral.Tells type negative digits) (hb : isDigit b = true)
    (hfits : type.Fits (signed negative (number (digits ++ [b])))) :
    push type negative numeral b =
      ⟨signed negative (number (digits ++ [b])), false, numeral.count + 1⟩ := by
  obtain ⟨hbefore, hshifted⟩ := fits_before hb hfits
  have hflag := h.overflowed.2 hbefore
  have hnext := signed_number_concat negative digits hb
  rw [push, h.value hflag, IntType.settle_of_fits hshifted, hflag]
  simp only [← hnext, IntType.settle_of_fits hfits, Bool.or_false]

/-- Where no step was flagged, the number fits. -/
theorem fits_of_push
    (h : numeral.Tells type negative digits) (hb : isDigit b = true)
    (hexact : (push type negative numeral b).overflowed = false) :
    type.Fits (signed negative (number (digits ++ [b]))) := by
  simp only [push, Bool.or_eq_false_iff] at hexact
  obtain ⟨⟨hflag, hlarge⟩, hfar⟩ := hexact
  have hshifted : type.Fits (numeral.value * 10) := by
    by_contra hout
    rw [IntType.settle_of_not_fits hout] at hlarge
    cases hlarge
  rw [IntType.settle_of_fits hshifted, h.value hflag, ← signed_number_concat negative digits hb]
    at hfar
  by_contra hout
  rw [IntType.settle_of_not_fits hout] at hfar
  cases hfar

theorem tells_push (h : numeral.Tells type negative digits) (hb : isDigit b = true) :
    (push type negative numeral b).Tells type negative (digits ++ [b]) := by
  refine ⟨?_, ⟨fits_of_push h hb, ?_⟩, ?_⟩
  · rw [List.length_append, ← h.count]
    rfl
  · intro hfits
    rw [push_of_fits h hb hfits]
  · intro hexact
    rw [push_of_fits h hb (fits_of_push h hb hexact)]

/-- A numeral tells about all digits that were added to it one by one. -/
theorem tells_foldl (type : IntType) (negative : Bool) (h : ∀ b ∈ digits, isDigit b = true) :
    (digits.foldl (push type negative) .zero).Tells type negative digits := by
  induction digits using List.reverseRecOn with
  | nil => exact tells_zero type negative
  | append_singleton digits b ih =>
      have hb : isDigit b = true := h b (by simp)
      have hdigits : ∀ d ∈ digits, isDigit d = true := by
        intro d hd
        exact h d (List.mem_append_left _ hd)
      rw [List.foldl_append]
      exact tells_push (ih hdigits) hb

namespace Tells

variable {entry : Position}

theorem verdict_of_nil (h : numeral.Tells type negative []) :
    numeral.verdict type entry none = .error .noMatch := by
  have hcount : numeral.count = 0 := h.count
  rw [verdict, Option.filter_none]
  exact if_pos hcount

theorem count_ne_zero (h : numeral.Tells type negative digits) (hdigits : digits ≠ []) :
    numeral.count ≠ 0 := by
  rw [h.count]
  exact List.length_eq_zero_iff.not.2 hdigits

theorem verdict_of_fits
    (h : numeral.Tells type negative digits) (hdigits : digits ≠ [])
    (hfits : type.Fits (signed negative (number digits))) :
    numeral.verdict type entry none = .ok (signed negative (number digits)) := by
  have hexact := h.overflowed.2 hfits
  rw [verdict, Option.filter_none]
  simp only [if_neg (h.count_ne_zero hdigits), hexact, h.value hexact]
  rfl

theorem verdict_of_not_fits
    (h : numeral.Tells type negative digits) (hdigits : digits ≠ [])
    (hout : ¬ type.Fits (signed negative (number digits))) :
    numeral.verdict type entry none = .error (.positioned entry (.overflow type)) := by
  have hflag : numeral.overflowed = true := by
    rw [← Bool.not_eq_false, h.overflowed]
    exact hout
  rw [verdict, Option.filter_none]
  simp only [if_neg (h.count_ne_zero hdigits), hflag, if_true]

end Tells

/-! ## Decimal texts -/

theorem exists_utf8EncodeChar_of_isDigit {c : Char} (h : c.isDigit = true) :
    ∃ b, String.utf8EncodeChar c = [b] ∧ isDigit b = true ∧ b.toNat = c.toNat := by
  obtain ⟨hle, hge⟩ := Char.isDigit_iff_toNat.1 h
  have hcode : c.val.toNat = c.toNat := rfl
  have hzero : '0'.toNat = 0x30 := rfl
  have hnine : '9'.toNat = 0x39 := rfl
  rcases Utf8.utf8EncodeChar_cases c with ⟨-, b, hencoding, hb⟩ | ⟨hlarge, -⟩ | ⟨hlarge, -⟩ |
    ⟨hlarge, -⟩
  · refine ⟨b, hencoding, isDigit_iff.2 ?_, hb⟩
    omega
  all_goals omega

/-- The bytes of a decimal text are digits, and they stand for the same number. -/
theorem number_encode {text : List Char} (h : ∀ c ∈ text, c.isDigit = true) :
    (∀ b ∈ Utf8.encode text, isDigit b = true) ∧
      number (Utf8.encode text) = Nat.ofDigitChars 10 text 0 := by
  rw [number]
  generalize 0 = n
  induction text generalizing n with
  | nil => exact ⟨by simp, rfl⟩
  | cons c text ih =>
      obtain ⟨hc, htext⟩ := List.forall_mem_cons.1 h
      obtain ⟨b, hencoding, hb, hcode⟩ := exists_utf8EncodeChar_of_isDigit hc
      obtain ⟨hdigits, hnumber⟩ := ih htext (10 * n + (b.toNat - 0x30))
      rw [Utf8.encode_cons, hencoding]
      refine ⟨List.forall_mem_cons.2 ⟨hb, hdigits⟩, ?_⟩
      rw [Nat.ofDigitChars_cons, ← hcode]
      exact hnumber

def decimal (n : Nat) : List UInt8 :=
  Utf8.encode n.repr.toList

theorem isDigit_of_mem_toList_repr (n : Nat) : ∀ c ∈ n.repr.toList, c.isDigit = true := by
  rw [Nat.toList_repr]
  intro c hc
  exact Nat.isDigit_of_mem_toDigits (by decide) (by decide) hc

theorem isDigit_of_mem_decimal {n : Nat} (hb : b ∈ decimal n) : isDigit b = true :=
  (number_encode (isDigit_of_mem_toList_repr n)).1 b hb

theorem number_decimal (n : Nat) : number (decimal n) = n := by
  rw [decimal, (number_encode (isDigit_of_mem_toList_repr n)).2, Nat.toList_repr,
    Nat.ofDigitChars_ten_toDigits]

theorem decimal_ne_nil (n : Nat) : decimal n ≠ [] := by
  rw [decimal, Nat.toList_repr]
  intro hnil
  rcases htext : Nat.toDigits 10 n with _ | ⟨c, text⟩
  · exact Nat.toDigits_ne_nil htext
  · rw [htext, Utf8.encode_cons] at hnil
    exact Utf8.not_isPrefix_nil c ((List.append_eq_nil_iff.1 hnil).1 ▸ List.prefix_rfl)

/-- The text of a negative number has a minus sign before its digits. -/
theorem encode_toString (v : Int) :
    Utf8.encode (toString v).toList =
      if 0 ≤ v then decimal v.toNat else 0x2D :: decimal (-v).toNat := by
  rw [Int.toString_eq_repr, Int.repr_eq_if]
  split
  · rfl
  · rw [String.toList_append, Utf8.encode_append]
    rfl

end Numeral
end StreamParse
