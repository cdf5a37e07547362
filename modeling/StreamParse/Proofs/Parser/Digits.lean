import Mathlib.Data.List.TakeWhile
import StreamParse.Proofs.Cursor.Plain
import StreamParse.Proofs.Cursor.Traversal
import StreamParse.Proofs.Numeral
import StreamParse.Proofs.Parser.Reference

/-!
# What numbers come to

The digits of a number are the longest run of them that stands in the content.  The byte after this
run decides whether the source failed there; any other end of the run is no trouble.  Then the
digits alone decide what comes of them.
-/

namespace StreamParse

/-- The digits that stand in the content from an offset on. -/
def Content.digits (content : Content) (offset : Nat) : List UInt8 :=
  (content.bytes.drop offset).takeWhile Numeral.isDigit

/-- The position after `n` bytes without a line feed. -/
def Position.along (p : Position) (n : Nat) : Position :=
  ⟨p.offset + n, p.line, p.column + n⟩

namespace Position

theorem along_along (p : Position) (m n : Nat) : (p.along m).along n = p.along (m + n) := by
  simp only [along, Nat.add_assoc]

@[simp] theorem offset_along (p : Position) (n : Nat) : (p.along n).offset = p.offset + n := rfl

theorem advance_of_ne_lineFeed (p : Position) {b : UInt8} (h : b.toNat ≠ lineFeed) :
    p.advance 1 b.toNat = p.along 1 := by
  rw [advance, if_neg h]
  rfl

theorem foldl_advance
    (p : Position) {bytes : List UInt8} (h : ∀ b ∈ bytes, b.toNat ≠ lineFeed) :
    bytes.foldl (fun p b => p.advance 1 b.toNat) p = p.along bytes.length := by
  induction bytes generalizing p with
  | nil => rfl
  | cons b bytes ih =>
      obtain ⟨hb, hbytes⟩ := List.forall_mem_cons.1 h
      rw [List.foldl_cons, advance_of_ne_lineFeed p hb, ih _ hbytes, along_along,
        List.length_cons, Nat.add_comm]

end Position

namespace Content

variable {content : Content} {p : Position}

theorem ne_lineFeed_of_isDigit {b : UInt8} (h : Numeral.isDigit b = true) :
    b.toNat ≠ Position.lineFeed := by
  obtain ⟨hle, -⟩ := Numeral.isDigit_iff.1 h
  exact Nat.ne_of_gt (Nat.lt_of_lt_of_le (by decide) hle)

theorem isDigit_of_mem_digits {offset : Nat} {b : UInt8} (h : b ∈ content.digits offset) :
    Numeral.isDigit b = true :=
  List.mem_takeWhile_imp h

theorem digits_isPrefix (content : Content) (offset : Nat) :
    content.digits offset <+: content.bytes.drop offset :=
  List.takeWhile_prefix _

/-- After the run of digits the content ends or goes on with another byte. -/
theorem exists_after_digits (content : Content) (offset : Nat) :
    ∃ rest, content.bytes.drop offset = content.digits offset ++ rest ∧
      ∀ b more, rest = b :: more → Numeral.isDigit b = false := by
  refine ⟨(content.bytes.drop offset).dropWhile Numeral.isDigit,
    List.takeWhile_append_dropWhile.symm, ?_⟩
  intro b more hrest
  have hhead := List.head?_dropWhile_not Numeral.isDigit (content.bytes.drop offset)
  rw [hrest] at hhead
  exact hhead

/-- Digits that stand in the content, and are not followed by another one, are its run of them. -/
theorem digits_of_drop
    {offset : Nat} {run rest : List UInt8} (hdrop : content.bytes.drop offset = run ++ rest)
    (hrun : ∀ b ∈ run, Numeral.isDigit b = true)
    (hrest : ∀ b more, rest = b :: more → Numeral.isDigit b = false) :
    content.digits offset = run := by
  rw [digits, hdrop, List.takeWhile_append_of_pos hrun]
  cases rest with
  | nil => rw [List.takeWhile_nil, List.append_nil]
  | cons b more =>
      rw [List.takeWhile_cons_of_neg (by simp [hrest b more rfl]), List.append_nil]

theorem offset_add_length_digits_le (hp : p.offset ≤ content.bytes.length) :
    (p.along (content.digits p.offset).length).offset ≤ content.bytes.length := by
  have hlength := (content.digits_isPrefix p.offset).length_le
  rw [List.length_drop] at hlength
  rw [Position.offset_along]
  omega

theorem passing_append
    {β : Type} (ending : Ending) {accepts : UInt8 → Bool} (add : β → UInt8 → β)
    {run : List UInt8} (h : ∀ b ∈ run, accepts b = true) (rest : List UInt8) (gathered : β)
    (p : Position) :
    passing ending accepts add (run ++ rest) gathered p =
      passing ending accepts add rest (run.foldl add gathered)
        (run.foldl (fun p b => p.advance 1 b.toNat) p) := by
  induction run generalizing gathered p with
  | nil => rfl
  | cons b run ih =>
      obtain ⟨hb, hrun⟩ := List.forall_mem_cons.1 h
      rw [List.cons_append, passing, if_pos hb, ih hrun]
      rfl

theorem passage_eq_passing
    {β : Type} (content : Content) (add : β → UInt8 → β) (start : β) (p : Position) :
    let digits := content.digits p.offset
    let stop := p.along digits.length
    ∃ rest, content.bytes.drop stop.offset = rest ∧
      (∀ b more, rest = b :: more → Numeral.isDigit b = false) ∧
      Content.passage Numeral.isDigit add start (some content) p =
        passing content.ending Numeral.isDigit add rest (digits.foldl add start) stop := by
  intro digits stop
  have hdigits : ∀ b ∈ digits, Numeral.isDigit b = true :=
    fun b hb => isDigit_of_mem_digits hb
  obtain ⟨rest, hsplit, hrest⟩ := content.exists_after_digits p.offset
  refine ⟨rest, ?_, hrest, ?_⟩
  · rw [Position.offset_along, ← List.drop_drop, hsplit, List.drop_left]
  · rw [passage, hsplit, passing_append _ _ hdigits,
      Position.foldl_advance p fun b hb => ne_lineFeed_of_isDigit (hdigits b hb)]

/-- The source fails in place of the byte at a position. -/
def FailsAt (content : Content) (p : Position) (failure : SourceFailure) : Prop :=
  content.Gives .byte p (.error (.positioned p (.source failure)))

theorem failsAt_iff {failure : SourceFailure} :
    content.FailsAt p failure ↔
      p.offset = content.bytes.length ∧ content.ending = .failed failure := by
  constructor
  · intro h
    cases h with
    | byteFailed hend hending => exact ⟨hend, hending⟩
  · rintro ⟨hend, hending⟩
    exact .byteFailed hend hending

theorem not_failsAt_of_drop
    {bytes rest : List UInt8} (hdrop : content.bytes.drop p.offset = bytes ++ rest)
    (hrest : rest = [] → content.ending = .ended) (failure : SourceFailure) :
    ¬ content.FailsAt (p.along bytes.length) failure := by
  intro h
  obtain ⟨hend, hfailed⟩ := failsAt_iff.1 h
  have hnil : [] = rest := by
    have hafter := congrArg (List.drop bytes.length) hdrop
    rwa [List.drop_left, List.drop_drop, ← Position.offset_along, hend, List.drop_length] at hafter
  rw [hrest hnil.symm] at hfailed
  cases hfailed

/-- A failure after the digits ends the reading. -/
theorem passage_of_failsAt
    {β : Type} (add : β → UInt8 → β) (start : β) {failure : SourceFailure}
    (h : content.FailsAt (p.along (content.digits p.offset).length) failure) :
    Content.passage Numeral.isDigit add start (some content) p =
      .ok ((content.digits p.offset).foldl add start, p.along (content.digits p.offset).length,
        some (.positioned (p.along (content.digits p.offset).length) (.source failure))) := by
  obtain ⟨hend, hending⟩ := failsAt_iff.1 h
  obtain ⟨rest, hdrop, -, hpassage⟩ := content.passage_eq_passing add start p
  rw [hend, List.drop_length] at hdrop
  rw [hpassage, ← hdrop, passing, hending]
  rfl

/-- Otherwise the digits end with the content or before another byte. -/
theorem exists_passage
    {β : Type} (add : β → UInt8 → β) (start : β) (hp : p.offset ≤ content.bytes.length)
    (hclaims : ∀ conduct, content.ending ≠ .overclaimed conduct)
    (h : ∀ failure, ¬ content.FailsAt (p.along (content.digits p.offset).length) failure) :
    ∃ error, (error = none ∨ error = some .endOfInput) ∧
      Content.passage Numeral.isDigit add start (some content) p =
        .ok ((content.digits p.offset).foldl add start,
          p.along (content.digits p.offset).length, error) := by
  obtain ⟨rest, hdrop, hrest, hpassage⟩ := content.passage_eq_passing add start p
  rw [hpassage]
  cases rest with
  | cons b more =>
      refine ⟨none, Or.inl rfl, ?_⟩
      rw [passing, hrest b more rfl]
      rfl
  | nil =>
      have hle := offset_add_length_digits_le hp
      have hge := List.drop_eq_nil_iff.1 hdrop
      have hended : content.ending = .ended := by
        cases hending : content.ending with
        | ended => rfl
        | failed failure =>
            exact absurd (failsAt_iff.2 ⟨Nat.le_antisymm hle hge, hending⟩) (h failure)
        | overclaimed conduct => exact absurd hending (hclaims conduct)
      refine ⟨some .endOfInput, Or.inr rfl, ?_⟩
      rw [passing, hended]
      rfl

end Content

namespace Reference

open Numeral (signed number)

variable {type : IntType} {negative : Bool} {entry p : Position} {content : Content}

/-- A failure of the source comes before anything that the digits say. -/
theorem numeral_of_failsAt
    {failure : SourceFailure}
    (h : content.FailsAt (p.along (content.digits p.offset).length) failure) :
    numeral type negative entry (some content) p =
      .ok (.error (.positioned (p.along (content.digits p.offset).length) (.source failure))) := by
  rw [numeral, Content.passage_of_failsAt _ _ h]
  rfl

section

variable (hp : p.offset ≤ content.bytes.length)
  (hclaims : ∀ conduct, content.ending ≠ .overclaimed conduct)
  (h : ∀ failure, ¬ content.FailsAt (p.along (content.digits p.offset).length) failure)
include hp hclaims h

/-- Digits that were ended without a failure come to what they tell. -/
theorem exists_tells
    (type : IntType) (negative : Bool) (entry : Position) :
    ∃ tally : Numeral, tally.Tells type negative (content.digits p.offset) ∧
      numeral type negative entry (some content) p =
        settle (tally.verdict type entry none) (some content)
          (p.along (content.digits p.offset).length) := by
  obtain ⟨error, herror, hpassage⟩ :=
    Content.exists_passage (Numeral.push type negative) .zero hp hclaims h
  refine ⟨_, Numeral.tells_foldl type negative fun b hb => Content.isDigit_of_mem_digits hb, ?_⟩
  rw [numeral, hpassage]
  rcases herror with rfl | rfl
  · rfl
  · rfl

theorem numeral_of_nil (hdigits : content.digits p.offset = []) :
    numeral type negative entry (some content) p = .ok (.error .noMatch) := by
  obtain ⟨tally, htells, hnumeral⟩ := exists_tells hp hclaims h type negative entry
  rw [hdigits] at htells
  rw [hnumeral, htells.verdict_of_nil]
  rfl

theorem numeral_of_fits
    (hdigits : content.digits p.offset ≠ [])
    (hfits : type.Fits (signed negative (number (content.digits p.offset)))) :
    numeral type negative entry (some content) p =
      .ok (.ok (signed negative (number (content.digits p.offset)),
        p.along (content.digits p.offset).length)) := by
  obtain ⟨tally, htells, hnumeral⟩ := exists_tells hp hclaims h type negative entry
  rw [hnumeral, htells.verdict_of_fits hdigits hfits]
  rfl

theorem numeral_of_not_fits
    (hdigits : content.digits p.offset ≠ [])
    (hout : ¬ type.Fits (signed negative (number (content.digits p.offset)))) :
    numeral type negative entry (some content) p =
      .ok (.error (.positioned entry (.overflow type))) := by
  obtain ⟨tally, htells, hnumeral⟩ := exists_tells hp hclaims h type negative entry
  rw [hnumeral, htells.verdict_of_not_fits hdigits hout]
  rfl

end

/-- After a minus sign the number is counted downwards. -/
theorem signedDigits_of_minus
    (type : IntType) (hminus : content.bytes[p.offset]? = some 0x2D) :
    signedDigits type (some content) p = numeral type true p (some content) (p.along 1) := by
  have hnext : p.advance 1 (0x2D : UInt8).toNat = p.along 1 :=
    p.advance_of_ne_lineFeed (by decide)
  simp only [signedDigits, enter, Reading.Account.reference, Reading.Account.bytes, Content.byte,
    hminus, Except.map, if_true]
  exact congrArg (numeral type true p (some content)) hnext

/-- Without one it is a number like any other.  An error of the first read is met again where the
digits are read. -/
theorem signedDigits_of_ne_minus
    (type : IntType) (hminus : content.bytes[p.offset]? ≠ some 0x2D) :
    signedDigits type (some content) p = digits type (some content) p := by
  simp only [signedDigits, digits, enter, Reading.Account.reference, Reading.Account.bytes,
    Content.byte]
  cases hget : content.bytes[p.offset]? with
  | some b =>
      have hne : b ≠ 0x2D := by
        rintro rfl
        exact hminus hget
      simp only [Except.map, if_neg hne]
  | none =>
      have hnil : content.bytes.drop p.offset = [] :=
        List.drop_eq_nil_iff.2 (List.getElem?_eq_none_iff.1 hget)
      cases hstop : content.ending.stop .ended with
      | ok halt => rfl
      | error fault =>
          simp only [Except.map, numeral, Content.passage, hnil, passing, hstop]

end Reference
end StreamParse
