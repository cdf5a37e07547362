import StreamParse.Proofs.Cursor.Reading

/-!
# Reads of a plain byte string

What a read gives can be said without any chain: by the bytes of the content, by the encodings of
scalar values, and by how the content ends.  The accounts of the readings agree with this.
-/

namespace StreamParse

namespace Content

/-- The bytes from an offset on are no encoding yet, but the beginning of one; this includes no
bytes at all. -/
def Open (content : Content) (offset : Nat) : Prop :=
  ∃ c, content.bytes.drop offset <+: String.utf8EncodeChar c ∧
    content.bytes.drop offset ≠ String.utf8EncodeChar c

/-- No encoding begins at an offset, and the bytes there do not begin one either. -/
def Malformed (content : Content) (offset : Nat) : Prop :=
  ∀ c, ¬ String.utf8EncodeChar c <+: content.bytes.drop offset ∧
    ¬ content.bytes.drop offset <+: String.utf8EncodeChar c

/-- What a read at a position gives: the code of a unit with the position after it, or an error. -/
inductive Gives (content : Content) : Grain → Position → Except Error (Nat × Position) → Prop
  | byte {p : Position} {b : UInt8} :
    content.bytes[p.offset]? = some b →
      Gives content .byte p (.ok (b.toNat, p.advance 1 b.toNat))
  | byteEnded {p : Position} :
    p.offset = content.bytes.length → content.ending = .ended →
      Gives content .byte p (.error .endOfInput)
  | byteFailed {p : Position} {failure : SourceFailure} :
    p.offset = content.bytes.length → content.ending = .failed failure →
      Gives content .byte p (.error (.positioned p (.source failure)))
  | rune {p : Position} {c : Char} :
    String.utf8EncodeChar c <+: content.bytes.drop p.offset →
      Gives content .rune p (.ok (c.toNat, p.advance c.utf8Size c.toNat))
  | runeEnded {p : Position} :
    p.offset = content.bytes.length → content.ending = .ended →
      Gives content .rune p (.error .endOfInput)
  | runeFailed {p : Position} {failure : SourceFailure} :
    content.Open p.offset → content.ending = .failed failure →
      Gives content .rune p (.error (.positioned p (.source failure)))
  | runeCut {p : Position} :
    p.offset < content.bytes.length → content.Open p.offset → content.ending = .ended →
      Gives content .rune p (.error (.invalidEncoding p))
  | runeMalformed {p : Position} :
    content.Malformed p.offset → Gives content .rune p (.error (.invalidEncoding p))

open Reading

variable {content : Content}

theorem open_iff {offset : Nat} :
    content.Open offset ↔ Utf8.classify (content.bytes.drop offset) = .incomplete :=
  Utf8.classify_eq_incomplete_iff.symm

theorem malformed_iff {offset : Nat} :
    content.Malformed offset ↔ Utf8.classify (content.bytes.drop offset) = .malformed :=
  Utf8.classify_eq_malformed_iff.symm

def coded {α : Type} (r : Reading α) (result : Except Error (α × Position)) :
    Except Error (Nat × Position) :=
  result.map fun (unit, q) => (r.code unit, q)

/-- An account of a reading gives what a read by its grain gives. -/
def Faithful {α : Type} {r : Reading α} (account : r.Account) : Prop :=
  ∀ {content : Content} {p : Position} {result : Except Error (Nat × Position)},
    p.offset ≤ content.bytes.length →
      (content.Gives r.grain p result ↔
        (account.reference (some content) p).map (coded r) = .ok result)

theorem faithful_bytes : Faithful Account.bytes := by
  intro content p result hle
  simp only [Account.reference, Account.bytes, Content.byte, Reading.bytes]
  constructor
  · intro h
    cases h with
    | byte hget =>
        rw [hget]
        rfl
    | byteEnded hp hending =>
        rw [List.getElem?_eq_none (by omega), hending]
        rfl
    | byteFailed hp hending =>
        rw [List.getElem?_eq_none (by omega), hending]
        rfl
  · intro h
    cases hget : content.bytes[p.offset]? with
    | some b =>
        rw [hget] at h
        cases h
        exact .byte hget
    | none =>
        have hp : p.offset = content.bytes.length := by
          have := List.getElem?_eq_none_iff.1 hget
          omega
        rw [hget] at h
        cases hending : content.ending with
        | ended =>
            rw [hending] at h
            cases h
            exact .byteEnded hp hending
        | failed failure =>
            rw [hending] at h
            cases h
            exact .byteFailed hp hending
        | overclaimed conduct =>
            rw [hending] at h
            cases h

theorem faithful_runes : Faithful Account.runes := by
  intro content p result hle
  simp only [Account.reference, Account.runes, Content.rune, Reading.runes]
  constructor
  · intro h
    cases h with
    | rune hencoding =>
        rw [Utf8.classify_eq_scalar_iff.2 hencoding]
        rfl
    | runeEnded hp hending =>
        rw [List.drop_eq_nil_of_le (by omega), hending]
        rfl
    | runeFailed hopen hending =>
        rw [open_iff.1 hopen, hending]
        rfl
    | runeCut hp hopen hending =>
        have hsome : (content.bytes.drop p.offset).isEmpty = false := by
          rw [List.isEmpty_eq_false_iff, ne_eq, List.drop_eq_nil_iff]
          omega
        rw [open_iff.1 hopen, hending, hsome]
        rfl
    | runeMalformed hmalformed =>
        rw [malformed_iff.1 hmalformed]
        rfl
  · intro h
    cases hverdict : Utf8.classify (content.bytes.drop p.offset) with
    | scalar c =>
        rw [hverdict] at h
        cases h
        exact .rune (Utf8.classify_eq_scalar_iff.1 hverdict)
    | malformed =>
        rw [hverdict] at h
        cases h
        exact .runeMalformed (malformed_iff.2 hverdict)
    | incomplete =>
        rw [hverdict] at h
        cases hending : content.ending with
        | failed failure =>
            rw [hending] at h
            cases h
            exact .runeFailed (open_iff.2 hverdict) hending
        | overclaimed conduct =>
            rw [hending] at h
            cases h
        | ended =>
            rw [hending] at h
            by_cases hp : p.offset = content.bytes.length
            · rw [List.drop_eq_nil_of_le (by omega)] at h
              cases h
              exact .runeEnded hp hending
            · have hsome : (content.bytes.drop p.offset).isEmpty = false := by
                rw [List.isEmpty_eq_false_iff, ne_eq, List.drop_eq_nil_iff]
                omega
              rw [hsome] at h
              cases h
              exact .runeCut (by omega) (open_iff.2 hverdict) hending

end Content
end StreamParse
