import Mathlib.Tactic.Common
import StreamParse.Utf8

/-!
# Deciding a sequence

A verdict on the first sequence of a byte string is tied to the encodings of scalar values: it names
the scalar value whose encoding begins the string, or says that the string is itself the beginning
of such an encoding, or that neither is so.  A verdict that is not left open therefore does not
depend on what follows.
-/

namespace StreamParse.Utf8

/-! ## Verdicts and the bytes that follow -/

theorem resume_append
    {missing low high bits : Nat} {bytes : List UInt8}
    (h : resume missing low high bits bytes ≠ .incomplete)
    (more : List UInt8) :
    resume missing low high bits (bytes ++ more) =
      resume missing low high bits bytes := by
  induction missing generalizing low high bits bytes with
  | zero => simp [resume]
  | succ missing ih =>
      cases bytes with
      | nil => simp [resume] at h
      | cons b rest =>
          simp only [resume, List.cons_append] at h ⊢
          by_cases hb : low ≤ b.toNat ∧ b.toNat ≤ high
          · simp only [if_pos hb] at h ⊢
            exact ih h
          · simp only [if_neg hb]

/-- A verdict that is not left open stands whatever bytes follow. -/
theorem classify_append
    {bytes : List UInt8} (h : classify bytes ≠ .incomplete) (more : List UInt8) :
    classify (bytes ++ more) = classify bytes := by
  cases bytes with
  | nil => simp at h
  | cons b rest =>
      simp only [classify, List.cons_append] at h ⊢
      cases hlead : Lead.ofByte? b with
      | none => rfl
      | some lead =>
          simp only [hlead] at h
          exact resume_append h more

theorem resume_succ_eq_scalar_iff
    {missing low high bits : Nat} {bytes : List UInt8} {c : Char} :
    resume (missing + 1) low high bits bytes = .scalar c ↔
      ∃ b rest, bytes = b :: rest ∧ low ≤ b.toNat ∧ b.toNat ≤ high ∧
        resume missing 0x80 0xBF (bits * 64 + (b.toNat - 0x80)) rest = .scalar c := by
  cases bytes with
  | nil => simp [resume]
  | cons b rest =>
      by_cases hb : low ≤ b.toNat ∧ b.toNat ≤ high
      · simp only [resume, if_pos hb]
        constructor
        · intro h
          exact ⟨b, rest, rfl, hb.1, hb.2, h⟩
        · rintro ⟨b', rest', heq, -, -, h⟩
          cases heq
          exact h
      · simp only [resume, if_neg hb]
        constructor
        · intro h
          cases h
        · rintro ⟨b', rest', heq, hlow, hhigh, -⟩
          cases heq
          exact absurd ⟨hlow, hhigh⟩ hb

theorem exists_resume_append_eq_scalar
    {missing low high bits : Nat} {bytes : List UInt8}
    (hlow : low < 256) (hrange : low ≤ high)
    (h : resume missing low high bits bytes = .incomplete) :
    ∃ more c, resume missing low high bits (bytes ++ more) = .scalar c := by
  induction missing generalizing low high bits bytes with
  | zero => simp [resume] at h
  | succ missing ih =>
      cases bytes with
      | nil =>
          -- The least byte in range comes first, whatever is still missing after it.
          have hnat : (UInt8.ofNat low).toNat = low := by
            simpa using Nat.mod_eq_of_lt hlow
          cases missing with
          | zero =>
              exact ⟨[UInt8.ofNat low], _, by simp [resume, hnat, hrange]; rfl⟩
          | succ missing =>
              obtain ⟨more, c, hmore⟩ :=
                @ih 0x80 0xBF (bits * 64 + (low - 0x80)) [] (by omega) (by omega) rfl
              refine ⟨UInt8.ofNat low :: more, c, ?_⟩
              simpa [resume, hnat, hrange] using hmore
      | cons b rest =>
          by_cases hb : low ≤ b.toNat ∧ b.toNat ≤ high
          · simp only [resume, if_pos hb] at h
            obtain ⟨more, c, hmore⟩ := ih (by omega) (by omega) h
            exact ⟨more, c, by simpa [resume, hb] using hmore⟩
          · simp [resume, hb] at h

/-! ## First bytes -/

theorem Lead.ofByte?_one {b : UInt8} (h : b.toNat < 0x80) :
    Lead.ofByte? b = some ⟨0, 0x80, 0xBF, b.toNat⟩ := by
  simp [Lead.ofByte?, h]

theorem Lead.ofByte?_two {b : UInt8} (h : 0xC2 ≤ b.toNat) (h' : b.toNat < 0xE0) :
    Lead.ofByte? b = some ⟨1, 0x80, 0xBF, b.toNat - 0xC0⟩ := by
  have hone : ¬ b.toNat < 0x80 := by omega
  have hnone : ¬ b.toNat < 0xC2 := by omega
  simp [Lead.ofByte?, hone, hnone, h']

/-- Of the first bytes that promise two more, one keeps out overlong forms and one surrogates. -/
theorem Lead.ofByte?_three {b : UInt8} (h : 0xE0 ≤ b.toNat) (h' : b.toNat < 0xF0) :
    Lead.ofByte? b =
      some ⟨2, if b.toNat = 0xE0 then 0xA0 else 0x80,
        if b.toNat = 0xED then 0x9F else 0xBF, b.toNat - 0xE0⟩ := by
  have hone : ¬ b.toNat < 0x80 := by omega
  have hnone : ¬ b.toNat < 0xC2 := by omega
  have htwo : ¬ b.toNat < 0xE0 := by omega
  by_cases hlow : b.toNat = 0xE0
  · simp [Lead.ofByte?, hlow]
  · by_cases hhigh : b.toNat = 0xED
    · simp [Lead.ofByte?, hhigh]
    · simp [Lead.ofByte?, hone, hnone, htwo, hlow, hhigh, h']

/-- Of the first bytes that promise three more, one keeps out overlong forms and one what lies
beyond the last scalar value. -/
theorem Lead.ofByte?_four {b : UInt8} (h : 0xF0 ≤ b.toNat) (h' : b.toNat ≤ 0xF4) :
    Lead.ofByte? b =
      some ⟨3, if b.toNat = 0xF0 then 0x90 else 0x80,
        if b.toNat = 0xF4 then 0x8F else 0xBF, b.toNat - 0xF0⟩ := by
  have hone : ¬ b.toNat < 0x80 := by omega
  have hnone : ¬ b.toNat < 0xC2 := by omega
  have htwo : ¬ b.toNat < 0xE0 := by omega
  have hthree : ¬ b.toNat < 0xF0 := by omega
  by_cases hlow : b.toNat = 0xF0
  · simp [Lead.ofByte?, hlow]
  · by_cases hhigh : b.toNat = 0xF4
    · simp [Lead.ofByte?, hhigh]
    · have hmiddle : b.toNat < 0xF4 := by omega
      have he0 : b.toNat ≠ 0xE0 := by omega
      have hed : b.toNat ≠ 0xED := by omega
      simp [Lead.ofByte?, hone, hnone, htwo, hthree, hlow, hhigh, hmiddle, he0, hed]

theorem Lead.ofByte?_eq_none {b : UInt8}
    (h : 0x80 ≤ b.toNat) (h' : b.toNat < 0xC2 ∨ 0xF4 < b.toNat) :
    Lead.ofByte? b = none := by
  have hone : ¬ b.toNat < 0x80 := by omega
  by_cases hnone : b.toNat < 0xC2
  · simp [Lead.ofByte?, hone, hnone]
  · have htwo : ¬ b.toNat < 0xE0 := by omega
    have hthree : ¬ b.toNat < 0xF0 := by omega
    have hfour : ¬ b.toNat < 0xF4 := by omega
    have he0 : b.toNat ≠ 0xE0 := by omega
    have hed : b.toNat ≠ 0xED := by omega
    have hf0 : b.toNat ≠ 0xF0 := by omega
    have hf4 : b.toNat ≠ 0xF4 := by omega
    simp [Lead.ofByte?, hone, hnone, htwo, hthree, hfour, he0, hed, hf0, hf4]

theorem Lead.range_of_ofByte? {b : UInt8} {lead : Lead} (h : Lead.ofByte? b = some lead) :
    lead.low < 256 ∧ lead.low ≤ lead.high := by
  simp only [Lead.ofByte?] at h
  split_ifs at h <;> cases h <;> simp

/-! ## Encodings -/

theorem toNat_val_ofNat {n : Nat} (h : n.isValidChar) : (Char.ofNat n).val.toNat = n := by
  rw [Char.ofNat, dif_pos h]
  rfl

theorem utf8EncodeChar_cases (c : Char) :
    (c.val.toNat < 0x80 ∧
      ∃ b₀, String.utf8EncodeChar c = [b₀] ∧ b₀.toNat = c.val.toNat) ∨
    (0x80 ≤ c.val.toNat ∧ c.val.toNat < 0x800 ∧
      ∃ b₀ b₁, String.utf8EncodeChar c = [b₀, b₁] ∧
        b₀.toNat = c.val.toNat / 64 + 0xC0 ∧ b₁.toNat = c.val.toNat % 64 + 0x80) ∨
    (0x800 ≤ c.val.toNat ∧ c.val.toNat < 0x10000 ∧
      ∃ b₀ b₁ b₂, String.utf8EncodeChar c = [b₀, b₁, b₂] ∧
        b₀.toNat = c.val.toNat / 4096 + 0xE0 ∧ b₁.toNat = c.val.toNat / 64 % 64 + 0x80 ∧
        b₂.toNat = c.val.toNat % 64 + 0x80) ∨
    (0x10000 ≤ c.val.toNat ∧ c.val.toNat < 0x110000 ∧
      ∃ b₀ b₁ b₂ b₃, String.utf8EncodeChar c = [b₀, b₁, b₂, b₃] ∧
        b₀.toNat = c.val.toNat / 262144 + 0xF0 ∧ b₁.toNat = c.val.toNat / 4096 % 64 + 0x80 ∧
        b₂.toNat = c.val.toNat / 64 % 64 + 0x80 ∧ b₃.toNat = c.val.toNat % 64 + 0x80) := by
  have hvalid : c.val.toNat < 0xD800 ∨ 0xDFFF < c.val.toNat ∧ c.val.toNat < 0x110000 :=
    c.valid
  simp only [String.utf8EncodeChar]
  generalize c.val.toNat = v at hvalid ⊢
  by_cases h1 : v ≤ 0x7F
  · refine Or.inl ⟨by omega, _, if_pos h1, ?_⟩
    rw [UInt8.toNat_ofNat']
    omega
  rw [if_neg h1]
  by_cases h2 : v ≤ 0x7FF
  · refine Or.inr (Or.inl ⟨by omega, by omega, _, _, if_pos h2, ?_, ?_⟩)
    all_goals rw [UInt8.toNat_ofNat']; omega
  rw [if_neg h2]
  by_cases h3 : v ≤ 0xFFFF
  · refine Or.inr (Or.inr (Or.inl ⟨by omega, by omega, _, _, _, if_pos h3, ?_, ?_, ?_⟩))
    all_goals rw [UInt8.toNat_ofNat']; omega
  rw [if_neg h3]
  refine Or.inr (Or.inr (Or.inr ⟨by omega, by omega, _, _, _, _, rfl, ?_, ?_, ?_, ?_⟩))
  all_goals rw [UInt8.toNat_ofNat']; omega

theorem classify_utf8EncodeChar (c : Char) :
    classify (String.utf8EncodeChar c) = .scalar c := by
  have hvalid : c.val.toNat < 0xD800 ∨ 0xDFFF < c.val.toNat ∧ c.val.toNat < 0x110000 :=
    c.valid
  have hback {n : Nat} (hn : n = c.val.toNat) : Verdict.scalar (Char.ofNat n) = .scalar c := by
    rw [hn]
    exact congrArg Verdict.scalar (Char.ofNat_toNat c)
  rcases utf8EncodeChar_cases c with
    ⟨hv, b₀, henc, h₀⟩ | ⟨hv, hv', b₀, b₁, henc, h₀, h₁⟩ |
    ⟨hv, hv', b₀, b₁, b₂, henc, h₀, h₁, h₂⟩ | ⟨hv, hv', b₀, b₁, b₂, b₃, henc, h₀, h₁, h₂, h₃⟩
  · simp only [henc, classify, Lead.ofByte?_one (b := b₀) (by omega), resume]
    exact hback h₀
  · simp only [henc, classify, Lead.ofByte?_two (b := b₀) (by omega) (by omega), resume]
    rw [if_pos (by omega)]
    exact hback (by omega)
  · simp only [henc, classify, Lead.ofByte?_three (b := b₀) (by omega) (by omega), resume]
    rw [if_pos (by split <;> split <;> omega), if_pos (by omega)]
    exact hback (by omega)
  · simp only [henc, classify, Lead.ofByte?_four (b := b₀) (by omega) (by omega), resume]
    rw [if_pos (by split <;> split <;> omega), if_pos (by omega), if_pos (by omega)]
    exact hback (by omega)

/-! ## Decided scalar values -/

section

variable {b₀ b₁ b₂ b₃ : UInt8} {n : Nat}

theorem utf8EncodeChar_ofNat_one (h : b₀.toNat < 0x80) :
    String.utf8EncodeChar (Char.ofNat b₀.toNat) = [b₀] := by
  have hn := toNat_val_ofNat (n := b₀.toNat) (Or.inl (by omega))
  rcases utf8EncodeChar_cases (Char.ofNat b₀.toNat) with
    ⟨-, c₀, henc, h₀⟩ | ⟨hv, -⟩ | ⟨hv, -⟩ | ⟨hv, -⟩
  · rw [henc, UInt8.toNat_inj.1 (h₀.trans hn)]
  all_goals omega

theorem utf8EncodeChar_ofNat_two
    (h : 0xC2 ≤ b₀.toNat) (h' : b₀.toNat < 0xE0)
    (h₁ : 0x80 ≤ b₁.toNat) (h₁' : b₁.toNat ≤ 0xBF)
    (hvalue : n = (b₀.toNat - 0xC0) * 64 + (b₁.toNat - 0x80)) :
    String.utf8EncodeChar (Char.ofNat n) = [b₀, b₁] := by
  have hn := toNat_val_ofNat (n := n) (Or.inl (by omega))
  rcases utf8EncodeChar_cases (Char.ofNat n) with
    ⟨hv, -⟩ | ⟨-, -, c₀, c₁, henc, hc₀, hc₁⟩ | ⟨hv, -⟩ | ⟨hv, -⟩
  · omega
  · have heq₀ : c₀ = b₀ := UInt8.toNat_inj.1 (by omega)
    have heq₁ : c₁ = b₁ := UInt8.toNat_inj.1 (by omega)
    rw [henc, heq₀, heq₁]
  all_goals omega

theorem utf8EncodeChar_ofNat_three
    (h : 0xE0 ≤ b₀.toNat) (h' : b₀.toNat < 0xF0)
    (h₁ : (if b₀.toNat = 0xE0 then 0xA0 else 0x80) ≤ b₁.toNat)
    (h₁' : b₁.toNat ≤ if b₀.toNat = 0xED then 0x9F else 0xBF)
    (h₂ : 0x80 ≤ b₂.toNat) (h₂' : b₂.toNat ≤ 0xBF)
    (hvalue : n = ((b₀.toNat - 0xE0) * 64 + (b₁.toNat - 0x80)) * 64 + (b₂.toNat - 0x80)) :
    String.utf8EncodeChar (Char.ofNat n) = [b₀, b₁, b₂] := by
  have hlow : 0x80 ≤ b₁.toNat ∧ (b₀.toNat = 0xE0 → 0xA0 ≤ b₁.toNat) := by
    split at h₁ <;> omega
  have hhigh : b₁.toNat ≤ 0xBF ∧ (b₀.toNat = 0xED → b₁.toNat ≤ 0x9F) := by
    split at h₁' <;> omega
  have hn : (Char.ofNat n).val.toNat = n := by
    apply toNat_val_ofNat
    simp only [Nat.isValidChar]
    omega
  rcases utf8EncodeChar_cases (Char.ofNat n) with
    ⟨hv, -⟩ | ⟨-, hv, -⟩ | ⟨-, -, c₀, c₁, c₂, henc, hc₀, hc₁, hc₂⟩ | ⟨hv, -⟩
  · omega
  · omega
  · have heq₀ : c₀ = b₀ := UInt8.toNat_inj.1 (by omega)
    have heq₁ : c₁ = b₁ := UInt8.toNat_inj.1 (by omega)
    have heq₂ : c₂ = b₂ := UInt8.toNat_inj.1 (by omega)
    rw [henc, heq₀, heq₁, heq₂]
  · omega

theorem utf8EncodeChar_ofNat_four
    (h : 0xF0 ≤ b₀.toNat) (h' : b₀.toNat ≤ 0xF4)
    (h₁ : (if b₀.toNat = 0xF0 then 0x90 else 0x80) ≤ b₁.toNat)
    (h₁' : b₁.toNat ≤ if b₀.toNat = 0xF4 then 0x8F else 0xBF)
    (h₂ : 0x80 ≤ b₂.toNat) (h₂' : b₂.toNat ≤ 0xBF)
    (h₃ : 0x80 ≤ b₃.toNat) (h₃' : b₃.toNat ≤ 0xBF)
    (hvalue : n = (((b₀.toNat - 0xF0) * 64 + (b₁.toNat - 0x80)) * 64 + (b₂.toNat - 0x80)) * 64 +
      (b₃.toNat - 0x80)) :
    String.utf8EncodeChar (Char.ofNat n) = [b₀, b₁, b₂, b₃] := by
  have hlow : 0x80 ≤ b₁.toNat ∧ (b₀.toNat = 0xF0 → 0x90 ≤ b₁.toNat) := by
    split at h₁ <;> omega
  have hhigh : b₁.toNat ≤ 0xBF ∧ (b₀.toNat = 0xF4 → b₁.toNat ≤ 0x8F) := by
    split at h₁' <;> omega
  have hn : (Char.ofNat n).val.toNat = n := by
    apply toNat_val_ofNat
    simp only [Nat.isValidChar]
    omega
  rcases utf8EncodeChar_cases (Char.ofNat n) with
    ⟨hv, -⟩ | ⟨-, hv, -⟩ | ⟨-, hv, -⟩ | ⟨-, -, c₀, c₁, c₂, c₃, henc, hc₀, hc₁, hc₂, hc₃⟩
  · omega
  · omega
  · omega
  · have heq₀ : c₀ = b₀ := UInt8.toNat_inj.1 (by omega)
    have heq₁ : c₁ = b₁ := UInt8.toNat_inj.1 (by omega)
    have heq₂ : c₂ = b₂ := UInt8.toNat_inj.1 (by omega)
    have heq₃ : c₃ = b₃ := UInt8.toNat_inj.1 (by omega)
    rw [henc, heq₀, heq₁, heq₂, heq₃]

end

/-- What is decided to be a scalar value begins with its encoding. -/
theorem utf8EncodeChar_prefix_of_classify
    {bytes : List UInt8} {c : Char} (h : classify bytes = .scalar c) :
    String.utf8EncodeChar c <+: bytes := by
  cases bytes with
  | nil => simp at h
  | cons b₀ rest =>
      simp only [classify] at h
      by_cases h1 : b₀.toNat < 0x80
      · simp only [Lead.ofByte?_one h1, resume, Verdict.scalar.injEq] at h
        rw [← h, utf8EncodeChar_ofNat_one h1]
        exact ⟨rest, rfl⟩
      by_cases hnone : b₀.toNat < 0xC2 ∨ 0xF4 < b₀.toNat
      · simp [Lead.ofByte?_eq_none (by omega) hnone] at h
      by_cases h2 : b₀.toNat < 0xE0
      · simp only [Lead.ofByte?_two (by omega) h2, resume_succ_eq_scalar_iff] at h
        obtain ⟨b₁, rest, rfl, hlow, hhigh, h⟩ := h
        simp only [resume, Verdict.scalar.injEq] at h
        rw [← h, utf8EncodeChar_ofNat_two (by omega) h2 hlow hhigh rfl]
        exact ⟨rest, rfl⟩
      by_cases h3 : b₀.toNat < 0xF0
      · simp only [Lead.ofByte?_three (by omega) h3, resume_succ_eq_scalar_iff] at h
        obtain ⟨b₁, rest, rfl, hlow, hhigh, b₂, rest, rfl, hlow₂, hhigh₂, h⟩ := h
        simp only [resume, Verdict.scalar.injEq] at h
        rw [← h, utf8EncodeChar_ofNat_three (by omega) h3 hlow hhigh hlow₂ hhigh₂ rfl]
        exact ⟨rest, rfl⟩
      · simp only [Lead.ofByte?_four (b := b₀) (by omega) (by omega),
          resume_succ_eq_scalar_iff] at h
        obtain ⟨b₁, rest, rfl, hlow, hhigh, b₂, rest, rfl, hlow₂, hhigh₂,
          b₃, rest, rfl, hlow₃, hhigh₃, h⟩ := h
        simp only [resume, Verdict.scalar.injEq] at h
        rw [← h, utf8EncodeChar_ofNat_four (by omega) (by omega) hlow hhigh hlow₂ hhigh₂
          hlow₃ hhigh₃ rfl]
        exact ⟨rest, rfl⟩

/-- A string is decided to begin with a scalar value exactly if it begins with its encoding. -/
theorem classify_eq_scalar_iff {bytes : List UInt8} {c : Char} :
    classify bytes = .scalar c ↔ String.utf8EncodeChar c <+: bytes := by
  constructor
  · exact utf8EncodeChar_prefix_of_classify
  · rintro ⟨more, rfl⟩
    have henc := classify_utf8EncodeChar c
    rw [classify_append (by simp [henc]), henc]

theorem utf8Size_le_length_of_classify
    {bytes : List UInt8} {c : Char} (h : classify bytes = .scalar c) :
    c.utf8Size ≤ bytes.length := by
  have hlen := (classify_eq_scalar_iff.1 h).length_le
  rwa [String.length_utf8EncodeChar] at hlen

/-! ## Sequences left open -/

theorem length_lt_utf8Size_of_classify
    {bytes more : List UInt8} {c : Char} (h : classify bytes = .incomplete)
    (hmore : classify (bytes ++ more) = .scalar c) :
    bytes.length < c.utf8Size := by
  by_contra hle
  have henc := classify_eq_scalar_iff.1 hmore
  have hlen : (String.utf8EncodeChar c).length ≤ bytes.length := by
    rw [String.length_utf8EncodeChar]
    omega
  have hwithin := List.prefix_of_prefix_length_le henc (List.prefix_append bytes more) hlen
  rw [classify_eq_scalar_iff.2 hwithin] at h
  cases h

/-- What is left open can be completed. -/
theorem exists_classify_append_eq_scalar
    {bytes : List UInt8} (h : classify bytes = .incomplete) :
    ∃ more c, classify (bytes ++ more) = .scalar c := by
  cases bytes with
  | nil => exact ⟨String.utf8EncodeChar default, default, classify_utf8EncodeChar default⟩
  | cons b rest =>
      simp only [classify] at h
      cases hlead : Lead.ofByte? b with
      | none => simp [hlead] at h
      | some lead =>
          simp only [hlead] at h
          obtain ⟨hlow, hrange⟩ := Lead.range_of_ofByte? hlead
          obtain ⟨more, c, hmore⟩ := exists_resume_append_eq_scalar hlow hrange h
          exact ⟨more, c, by simpa [classify, hlead] using hmore⟩

/-- A string is left open exactly if it is a proper beginning of an encoding. -/
theorem classify_eq_incomplete_iff {bytes : List UInt8} :
    classify bytes = .incomplete ↔
      ∃ c, bytes <+: String.utf8EncodeChar c ∧ bytes ≠ String.utf8EncodeChar c := by
  constructor
  · intro h
    obtain ⟨more, c, hmore⟩ := exists_classify_append_eq_scalar h
    have henc := classify_eq_scalar_iff.1 hmore
    refine ⟨c, ?_, ?_⟩
    · rcases List.prefix_or_prefix_of_prefix henc (List.prefix_append bytes more) with hle | hle
      · rw [classify_eq_scalar_iff.2 hle] at h
        cases h
      · exact hle
    · rintro rfl
      rw [classify_utf8EncodeChar] at h
      cases h
  · rintro ⟨c, ⟨more, hmore⟩, hne⟩
    by_contra hopen
    have hscalar : classify bytes = .scalar c := by
      rw [← classify_append hopen more, hmore, classify_utf8EncodeChar]
    have hlen := (classify_eq_scalar_iff.1 hscalar).length_le
    rw [← hmore, List.length_append] at hlen
    have hnil : more = [] := List.eq_nil_of_length_eq_zero (by omega)
    exact hne (by simpa [hnil] using hmore)

theorem classify_of_isPrefix_utf8EncodeChar
    {bytes : List UInt8} {c : Char} (hbegin : bytes <+: String.utf8EncodeChar c)
    (hscalar : ¬ String.utf8EncodeChar c <+: bytes) : classify bytes = .incomplete := by
  refine classify_eq_incomplete_iff.2 ⟨c, hbegin, ?_⟩
  rintro rfl
  exact hscalar List.prefix_rfl

/-- A string is malformed exactly if no encoding begins it and it begins no encoding. -/
theorem classify_eq_malformed_iff {bytes : List UInt8} :
    classify bytes = .malformed ↔
      ∀ c, ¬ String.utf8EncodeChar c <+: bytes ∧ ¬ bytes <+: String.utf8EncodeChar c := by
  constructor
  · intro h c
    have hscalar : ¬ String.utf8EncodeChar c <+: bytes := by
      rw [← classify_eq_scalar_iff, h]
      simp
    refine ⟨hscalar, ?_⟩
    intro hbegin
    have hopen := classify_of_isPrefix_utf8EncodeChar hbegin hscalar
    rw [h] at hopen
    cases hopen
  · intro h
    cases hverdict : classify bytes with
    | malformed => rfl
    | scalar c => exact absurd (classify_eq_scalar_iff.1 hverdict) (h c).1
    | incomplete =>
        obtain ⟨c, hbegin, -⟩ := classify_eq_incomplete_iff.1 hverdict
        exact absurd hbegin (h c).2

/-- Four bytes decide. -/
theorem length_lt_maxWidth_of_classify
    {bytes : List UInt8} (h : classify bytes = .incomplete) :
    bytes.length < maxWidth := by
  obtain ⟨c, hle, hne⟩ := classify_eq_incomplete_iff.1 h
  have hlen := hle.length_le
  have hlt : bytes.length ≠ (String.utf8EncodeChar c).length := fun heq =>
    hne (hle.eq_of_length heq)
  have hfour := c.utf8Size_le_four
  rw [String.length_utf8EncodeChar] at hlen hlt
  rw [maxWidth]
  omega

/-- The first four bytes decide as the whole string does. -/
theorem classify_take_maxWidth (bytes : List UInt8) :
    classify (bytes.take maxWidth) = classify bytes := by
  by_cases hopen : classify (bytes.take maxWidth) = .incomplete
  · have hlen := length_lt_maxWidth_of_classify hopen
    rw [List.length_take] at hlen
    rw [List.take_of_length_le (by omega)]
  · rw [← classify_append hopen (bytes.drop maxWidth), List.take_append_drop]

/-! ## Texts -/

@[simp] theorem encode_nil : encode [] = [] := rfl

@[simp] theorem encode_cons (c : Char) (text : List Char) :
    encode (c :: text) = String.utf8EncodeChar c ++ encode text := rfl

@[simp] theorem encode_eq_nil_iff {text : List Char} : encode text = [] ↔ text = [] := by
  cases text <;> simp

theorem encode_append_of_decode {bytes rest : List UInt8} {text : List Char}
    (h : decode bytes = (text, rest)) : encode text ++ rest = bytes := by
  fun_induction decode bytes generalizing text rest with
  | case1 bytes c hscalar hlt text' rest' hdecode ih =>
      cases h
      obtain ⟨more, hmore⟩ := classify_eq_scalar_iff.1 hscalar
      have hdrop : bytes.drop c.utf8Size = more := by
        rw [← hmore, List.drop_left' (String.length_utf8EncodeChar c)]
      rw [hdrop] at hdecode ih
      rw [encode_cons, List.append_assoc, ih hdecode, hmore]
  | case2 bytes hopen =>
      cases h
      rfl

theorem not_isPrefix_of_decode {bytes rest : List UInt8} {text : List Char}
    (h : decode bytes = (text, rest)) (c : Char) : ¬ String.utf8EncodeChar c <+: rest := by
  fun_induction decode bytes generalizing text rest with
  | case1 bytes d hscalar hlt text' rest' hdecode ih =>
      cases h
      exact ih hdecode
  | case2 bytes hopen =>
      cases h
      rw [← classify_eq_scalar_iff]
      exact hopen c

end StreamParse.Utf8
