import StreamParse.Proofs.Utf8.Text

/-!
# Verdicts and validators

The verdict on the first sequence of a byte string is exact.  It is left open for the strings from
which an encoding goes on and for no others, so what is malformed cannot be mended by any bytes that
follow.

The same verdict can be had from a validator, which is asked about byte strings as a whole: whether
they are texts, and if not, how much of them is one and whether the rest is only cut short.  It is
enough to ask about the first four bytes.  These may hold more than the first sequence, and so they
need not be a text although they begin with one.
-/

namespace StreamParse.Utf8

/-- What keeps a byte string from being a text. -/
structure Flaw where
  /-- Length of the longest text that the string begins with. -/
  validUpTo : Nat
  /-- Whether the bytes after this text begin an encoding, so that only the end of the string is
  unexpected. -/
  cut : Bool
  deriving DecidableEq

/-- Tells the text that a byte string encodes, or what keeps it from being one. -/
abbrev Validator := List UInt8 → Except Flaw (List Char)

/-- The verdict on the first sequence of a text. -/
def Verdict.ofText : List Char → Verdict
  | [] => .incomplete
  | c :: _ => .scalar c

namespace Validator

/-- The verdict on the first sequence of `window`, by what the validator says of all of it. -/
def judge (validate : Validator) (window : List UInt8) : Verdict :=
  match validate window with
  | .ok text => .ofText text
  | .error flaw =>
    if 0 < flaw.validUpTo then
      .ofText ((validate (window.take flaw.validUpTo)).toOption.getD [])
    else if flaw.cut then .incomplete
    else .malformed

/-- The verdict on the first sequence of `bytes`, by what the validator says of the first four. -/
def verdict (validate : Validator) (bytes : List UInt8) : Verdict :=
  validate.judge (bytes.take maxWidth)

/-- The validator accepts texts and nothing else, and what it says of other strings is so. -/
structure Exact (validate : Validator) : Prop where
  ok_iff : ∀ bytes text, validate bytes = .ok text ↔ encode text = bytes
  longest : ∀ bytes flaw, validate bytes = .error flaw →
    ∃ text, Longest bytes text ∧ (encode text).length = flaw.validUpTo
  cut_iff : ∀ bytes flaw, validate bytes = .error flaw →
    (flaw.cut = true ↔ ∃ c, bytes.drop flaw.validUpTo <+: String.utf8EncodeChar c)

/-- The validator that decodes as much as it can. -/
def decoding : Validator := fun bytes =>
  let (text, rest) := decode bytes
  if rest.isEmpty then .ok text
  else .error ⟨bytes.length - rest.length, classify rest = .incomplete⟩

end Validator

variable {bytes : List UInt8} {text : List Char} {flaw : Flaw} {validate : Validator}

/-! ## What no bytes can mend -/

/-- A string is malformed exactly if no encoding begins it, whatever bytes follow. -/
theorem classify_eq_malformed_iff_forall_append :
    classify bytes = .malformed ↔ ∀ more c, ¬ String.utf8EncodeChar c <+: bytes ++ more := by
  constructor
  · intro h more c
    rw [← classify_eq_scalar_iff, classify_append (by simp [h]), h]
    simp
  · intro h
    rw [classify_eq_malformed_iff]
    intro c
    constructor
    · intro hscalar
      exact h [] c (by rwa [List.append_nil])
    · rintro ⟨more, hmore⟩
      exact h more c (hmore ▸ List.prefix_rfl)

/-- Surrogates and overlong forms are known at their second byte at the latest. -/
example : classify [0xED, 0xA0] = .malformed ∧ classify [0xF0, 0x8F] = .malformed ∧
    classify [0xF0, 0x90] = .incomplete := by
  decide

/-! ## Validators -/

/-- Bytes that begin with a text have the verdict on this text, unless it is empty and they are
not. -/
theorem classify_of_encode_isPrefix (h : encode text <+: bytes) (hne : text = [] → bytes = []) :
    classify bytes = .ofText text := by
  cases text with
  | nil =>
      rw [hne rfl]
      rfl
  | cons c text =>
      rw [encode_cons] at h
      exact classify_eq_scalar_iff.2 ((List.prefix_append _ _).trans h)

/-- Where nothing of the bytes is text, their first sequence is cut short or malformed. -/
theorem classify_of_longest_nil
    (h : Longest bytes []) {cut : Bool}
    (hcut : cut = true ↔ ∃ c, bytes <+: String.utf8EncodeChar c) :
    classify bytes = if cut then .incomplete else .malformed := by
  have hscalar := longest_nil_iff.1 h
  by_cases hopen : cut = true
  · rw [if_pos hopen]
    obtain ⟨c, hbegin⟩ := hcut.1 hopen
    exact classify_of_isPrefix_utf8EncodeChar hbegin (hscalar c)
  · rw [if_neg hopen, classify_eq_malformed_iff]
    intro c
    refine ⟨hscalar c, ?_⟩
    intro hbegin
    exact hopen (hcut.2 ⟨c, hbegin⟩)

namespace Validator

theorem decoding_eq_ok_iff : decoding bytes = .ok text ↔ encode text = bytes := by
  rw [← decode_eq_nil_iff, decoding]
  rcases decode bytes with ⟨other, rest⟩
  cases rest <;> simp

theorem exists_decode_of_decoding (h : decoding bytes = .error flaw) :
    ∃ text rest, decode bytes = (text, rest) ∧ (encode text).length = flaw.validUpTo ∧
      (flaw.cut = true ↔ classify rest = .incomplete) := by
  rw [decoding] at h
  rcases hdecode : decode bytes with ⟨text, rest⟩
  have hbytes := encode_append_of_decode hdecode
  rw [hdecode] at h
  cases rest with
  | nil => simp at h
  | cons b rest =>
      obtain rfl := Except.error.inj h
      refine ⟨text, _, rfl, ?_, decide_eq_true_iff⟩
      rw [← hbytes, List.length_append, Nat.add_sub_cancel]

theorem exact_decoding : decoding.Exact := by
  refine ⟨fun _ _ => decoding_eq_ok_iff, ?_, ?_⟩
  · intro bytes flaw h
    obtain ⟨text, rest, hdecode, hlength, -⟩ := exists_decode_of_decoding h
    exact ⟨text, longest_of_decode hdecode, hlength⟩
  · intro bytes flaw h
    obtain ⟨text, rest, hdecode, hlength, hcut⟩ := exists_decode_of_decoding h
    have hscalar := not_isPrefix_of_decode hdecode
    rw [hcut, ← hlength, ← encode_append_of_decode hdecode, List.drop_left]
    constructor
    · intro hopen
      obtain ⟨c, hbegin, -⟩ := classify_eq_incomplete_iff.1 hopen
      exact ⟨c, hbegin⟩
    · rintro ⟨c, hbegin⟩
      exact classify_of_isPrefix_utf8EncodeChar hbegin (hscalar c)

namespace Exact

theorem validate_take (h : validate.Exact) (hbegins : encode text <+: bytes) :
    validate (bytes.take (encode text).length) = .ok text := by
  rw [h.ok_iff]
  exact List.prefix_iff_eq_take.1 hbegins

theorem judge_eq (h : validate.Exact) (window : List UInt8) :
    validate.judge window = classify window := by
  rw [judge]
  cases hreport : validate window with
  | ok text =>
      have htext := (h.ok_iff window text).1 hreport
      refine (classify_of_encode_isPrefix (htext ▸ List.prefix_rfl) ?_).symm
      rintro rfl
      exact htext.symm
  | error flaw =>
      obtain ⟨text, hlongest, hlength⟩ := h.longest window flaw hreport
      have hcut := h.cut_iff window flaw hreport
      simp only [← hlength, h.validate_take hlongest.isPrefix] at hcut ⊢
      by_cases hempty : text = []
      · subst hempty
        rw [if_neg (by simp)]
        exact (classify_of_longest_nil hlongest hcut).symm
      · have hpos : 0 < (encode text).length := by
          rw [List.length_pos_iff]
          simpa using hempty
        rw [if_pos hpos]
        exact (classify_of_encode_isPrefix hlongest.isPrefix (absurd · hempty)).symm

/-- The first four bytes are enough to ask a validator about. -/
theorem verdict_eq (h : validate.Exact) (bytes : List UInt8) :
    validate.verdict bytes = classify bytes := by
  rw [verdict, h.judge_eq, classify_take_maxWidth]

end Exact
end Validator

/-- Verdicts are exact.  A string is decided to begin with a scalar value exactly if it begins with
the encoding of it, which is then the only one; it is left open exactly if it is a proper beginning
of an encoding, and so has three bytes at most; and it is malformed in all other cases, which are
those in which no bytes that follow make it begin with an encoding.  So a verdict that is not left
open stands whatever bytes follow.  Every validator that is right about whole strings finds the same
verdicts. -/
theorem verdicts_exact (bytes : List UInt8) :
    (∀ c width, classify bytes = .scalar c ∧ c.utf8Size = width ↔
      String.utf8EncodeChar c <+: bytes ∧ (String.utf8EncodeChar c).length = width) ∧
    (∀ c d, String.utf8EncodeChar c <+: bytes → String.utf8EncodeChar d <+: bytes → c = d) ∧
    (classify bytes = .incomplete ↔
      ∃ c, bytes <+: String.utf8EncodeChar c ∧ bytes ≠ String.utf8EncodeChar c) ∧
    (classify bytes = .incomplete → bytes.length ≤ 3) ∧
    (classify bytes = .malformed ↔
      ∀ c, ¬ String.utf8EncodeChar c <+: bytes ∧ ¬ bytes <+: String.utf8EncodeChar c) ∧
    (classify bytes = .malformed ↔ ∀ more c, ¬ String.utf8EncodeChar c <+: bytes ++ more) ∧
    (classify bytes ≠ .incomplete → ∀ more, classify (bytes ++ more) = classify bytes) ∧
    ∀ validate : Validator, validate.Exact → validate.verdict bytes = classify bytes := by
  refine ⟨?_, fun c d => eq_of_isPrefix, classify_eq_incomplete_iff, ?_,
    classify_eq_malformed_iff, classify_eq_malformed_iff_forall_append, classify_append, ?_⟩
  · intro c width
    rw [classify_eq_scalar_iff, String.length_utf8EncodeChar]
  · intro hopen
    exact Nat.le_of_lt_succ (length_lt_maxWidth_of_classify hopen)
  · intro validate hexact
    exact hexact.verdict_eq bytes

/-- A scalar value of one byte before a sequence that is cut short, this sequence alone, and a
surrogate. -/
theorem verdicts_exact_of_cut :
    let bytes : List UInt8 := [0x61, 0xE2, 0x82]
    Validator.decoding.Exact ∧ Validator.decoding.verdict bytes = .scalar 'a' ∧
      Validator.decoding.verdict (bytes.drop 1) = .incomplete ∧
        ∀ more, Validator.decoding.verdict ([0xED, 0xA0] ++ more) = .malformed := by
  intro bytes
  have hexact := Validator.exact_decoding
  obtain ⟨-, -, -, -, -, -, -, hscalar⟩ := verdicts_exact bytes
  obtain ⟨-, -, -, -, -, -, -, hopen⟩ := verdicts_exact (bytes.drop 1)
  obtain ⟨-, -, -, -, -, -, hstands, -⟩ := verdicts_exact [0xED, 0xA0]
  refine ⟨hexact, (hscalar _ hexact).trans (by decide), (hopen _ hexact).trans (by decide), ?_⟩
  intro more
  obtain ⟨-, -, -, -, -, -, -, hmalformed⟩ := verdicts_exact ([0xED, 0xA0] ++ more)
  rw [hmalformed _ hexact, hstands (by decide)]
  decide

end StreamParse.Utf8
