import StreamParse.Proofs.Input
import StreamParse.Proofs.Parser.Composed

/-!
# Parsing an input from its start

What comes of parsing an input depends on its content only, and not on how the content is cut into
chunks.  If the source fails, then parsing either meets that failure or comes to what it comes to
for every input that begins with the same bytes.
-/

namespace StreamParse.Parser

variable {α : Type}

/-- What comes of parsing an input from its start: a value and the position after what it took, or
an error and the position where reading may go on. -/
def outcome (p : Parser α) (input : Input) :
    Except Fault (Except (Error × Position) (α × Position)) :=
  let (entry, store) := input.enter .empty
  ((p entry).run store).1.map fun
    | .ok (value, cursor) => .ok (value, cursor.position)
    | .error failure => .error (failure.error, failure.cursor.position)

/-- The outcome of a parser is what its reference says of the content. -/
theorem Refines.outcome_eq {p : Parser α} {ref : Reference α} (h : p.Refines ref) (input : Input) :
    p.outcome input =
      (ref input.content .start).map
        fun parsed => parsed.mapError fun error => (error, .start) := by
  have hrun := h (input.sees_enter .empty)
  have hstart := input.position_enter .empty
  rw [hstart] at hrun
  simp only [outcome]
  generalize ref input.content .start = reference at hrun ⊢
  generalize (p (input.enter .empty).1).run (input.enter .empty).2 = result at hrun ⊢
  cases hrun with
  | fault => rfl
  | success => rfl
  | error =>
      simp only [Except.map, Parsed.raise_error, hstart]
      rfl

/-- Chunking never changes a parse: inputs with the same content give the same outcome, whichever
of them is all there and however the others hand out their bytes.  There is an outcome whenever no
source overclaims and offsets are addresses. -/
theorem outcome_eq_of_content_eq
    {p : Parser α} (hp : Closed p) {a b : Input} (hcontent : a.content = b.content) :
    p.outcome a = p.outcome b ∧
      ∀ content, a.content = some content → (∀ conduct, content.ending ≠ .overclaimed conduct) →
        content.bytes.length < offsetLimit →
          (∃ result, p.outcome a = .ok result) ∧
            (content.ending = .ended → p.outcome a = p.outcome (.complete content.bytes)) := by
  obtain ⟨ref, horderly, hrefines⟩ := hp.exists_reference
  rw [hrefines.outcome_eq, hrefines.outcome_eq, ← hcontent]
  refine ⟨rfl, fun content ha hending hlength => ⟨?_, ?_⟩⟩
  · have hstart : Position.start.offset ≤ content.bytes.length := Nat.zero_le _
    obtain ⟨parsed, hparsed⟩ := horderly.total hending hlength hstart
    exact ⟨_, by rw [ha, hparsed]; rfl⟩
  · intro hended
    rw [hrefines.outcome_eq, Input.content, ha, ← hended]

/-- A scalar value that is cut in two, with an empty answer between, parses like a whole one. -/
theorem outcome_eq_of_two_pieces :
    let stream : Input :=
      .streaming ⟨.supplier, [.deliver [0xC3] false, .deliver [] false, .deliver [0xA9] true]⟩
        default
    (literal "é").outcome (.complete [0xC3, 0xA9]) = .ok (.ok ((), ⟨2, 1, 2⟩)) ∧
      (literal "é").outcome stream = .ok (.ok ((), ⟨2, 1, 2⟩)) := by
  intro stream
  have hsame : (literal "é").outcome (.complete [0xC3, 0xA9]) = (literal "é").outcome stream :=
    (outcome_eq_of_content_eq (.literal "é") (by decide)).1
  have hwhole : (literal "é").outcome (.complete [0xC3, 0xA9]) = .ok (.ok ((), ⟨2, 1, 2⟩)) := by
    decide +kernel
  exact ⟨hwhole, hsame ▸ hwhole⟩

/-- Parsing never depends on what it has not read: from a stream that delivers `bytes` and then
fails, it either meets the failure or comes to what it comes to for every input that begins with
`bytes`. -/
theorem outcome_causal
    {p : Parser α} (hp : Closed p) {stream : Input} {bytes : List UInt8}
    {failure : SourceFailure} (hstream : stream.content = some ⟨bytes, .failed failure⟩) :
    (∃ position, p.outcome stream =
      .ok (.error (.positioned position (.source failure), .start))) ∨
    ∀ (input : Input) (content : Content), input.content = some content →
      bytes <+: content.bytes → p.outcome input = p.outcome stream := by
  obtain ⟨ref, horderly, hrefines⟩ := hp.exists_reference
  by_cases hmet : ∃ q, ref (some ⟨bytes, .failed failure⟩) .start =
      .ok (.error (.positioned q (.source failure)))
  · obtain ⟨q, hq⟩ := hmet
    refine Or.inl ⟨q, ?_⟩
    rw [hrefines.outcome_eq, hstream, hq]
    rfl
  · refine Or.inr ?_
    intro input content hinput hbytes
    have hstart : Position.start.offset ≤ bytes.length := Nat.zero_le _
    rcases horderly.causal failure hbytes hstart with hfailed | heq
    · exact absurd hfailed hmet
    · rw [hrefines.outcome_eq, hrefines.outcome_eq, hinput, hstream, heq]

/-- After a digit nothing is known yet about the end of a number: here it is a failure.  After a
space it is known, whatever comes next. -/
theorem outcome_causal_of_digits :
    let stream (bytes : List UInt8) : Input :=
      .streaming ⟨.reader, [.deliver bytes false, .fail ⟨.named "Other", "x"⟩]⟩ default
    (asciiDigits ⟨false, .w8⟩).outcome (stream [0x31]) =
      .ok (.error (.positioned ⟨1, 1, 2⟩ (.source ⟨.named "Other", "x"⟩), .start)) ∧
    (asciiDigits ⟨false, .w8⟩).outcome (stream [0x31, 0x20]) = .ok (.ok (1, ⟨1, 1, 2⟩)) ∧
    ∀ (input : Input) (content : Content), input.content = some content →
      [0x31, 0x20] <+: content.bytes →
        (asciiDigits ⟨false, .w8⟩).outcome input = .ok (.ok (1, ⟨1, 1, 2⟩)) := by
  intro stream
  have hread : (asciiDigits ⟨false, .w8⟩).outcome (stream [0x31, 0x20]) =
      .ok (.ok (1, ⟨1, 1, 2⟩)) := by
    decide +kernel
  refine ⟨by decide +kernel, hread, ?_⟩
  have hstream : (stream [0x31, 0x20]).content =
      some ⟨[0x31, 0x20], .failed ⟨.named "Other", "x"⟩⟩ := rfl
  rcases outcome_causal (.asciiDigits ⟨false, .w8⟩) hstream with ⟨position, hfailed⟩ | hcausal
  · rw [hread] at hfailed
    cases hfailed
  · intro input content hcontent hbytes
    exact (hcausal input content hcontent hbytes).trans hread

end StreamParse.Parser
