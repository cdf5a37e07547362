import StreamParse.Proofs.Conformance
import StreamParse.Proofs.Parser.Composed

/-!
# Hard errors are raised

Where the input is malformed or its source fails, nothing else can be made of it: whichever read of
a parser meets such an error, the parser fails with it where it was started.  What comes of a
parser is known from its reference; that the reads on the way agree with it is what refinement
keeps an eye on.
-/

namespace StreamParse.Parser

variable {α : Type}

/-- What a run comes to, if one of its reads met an error that does not fall through. -/
theorem eq_error_of_heeds
    {store : Store} {i : Nat} {view : Option Content} {entry : Cursor} {outcome : Outcome α}
    {result : Except Fault (Parsed α) × Store}
    (h : store.Comes i view (Parsed.raise entry) outcome result) :
    ∃ attempts : List Attempt, result.2.reads.toList = store.reads.toList ++ attempts ∧
      ∀ attempt ∈ attempts, ∀ error, attempt.outcome = .ok (.error error) →
        error.fallsThrough = false → result.1 = .ok (.error ⟨error, entry⟩) := by
  cases h with
  | fault hheeds =>
      obtain ⟨attempts, hreads, hraised⟩ := hheeds
      refine ⟨attempts, hreads, ?_⟩
      intro attempt hmem error houtcome hhard
      cases hraised attempt hmem error houtcome hhard
  | success _ hheeds =>
      obtain ⟨attempts, hreads, hraised⟩ := hheeds
      refine ⟨attempts, hreads, ?_⟩
      intro attempt hmem error houtcome hhard
      cases hraised attempt hmem error houtcome hhard
  | error _ hheeds =>
      obtain ⟨attempts, hreads, hraised⟩ := hheeds
      refine ⟨attempts, hreads, ?_⟩
      intro attempt hmem error houtcome hhard
      cases hraised attempt hmem error houtcome hhard
      rfl

/-- Hard read errors are never swallowed.  From every cursor that any reads have led to, if a read
that is made during a parse meets a malformed sequence or a failure, the parse fails with that
very error at its entry; so a parse that succeeds or falls through has made no such read. -/
theorem hard_error_raised
    {p : Parser α} (hp : Closed p) {grammar : Grammar} {inputs : List (String × Input)}
    {store : Store} (hreaches : (Session.start grammar inputs).store.Reaches store)
    {entry : Cursor} (hentry : store.Known entry) :
    ∃ attempts : List Attempt,
      ((p entry).run store).2.reads.toList = store.reads.toList ++ attempts ∧
        ∀ attempt ∈ attempts, ∀ error, attempt.outcome = .ok (.error error) →
          error.fallsThrough = false →
            ((p entry).run store).1 = .ok (.error ⟨error, entry⟩) := by
  obtain ⟨ref, -, hrefines⟩ := hp.exists_reference
  have hholds := (Session.fresh_start grammar inputs).holds.reaches hreaches
  obtain ⟨i, view, hsees⟩ := (hholds.sees hentry).exists_sees
  exact eq_error_of_heeds (hrefines hsees)

/-- What is optional still has to be well-formed. -/
theorem hard_error_raised_of_optional :
    let store := (Session.start ⟨[]⟩ [("s", .complete [0xFF])]).store
    let entry : Cursor := ⟨some ⟨0, ⟨0, 0⟩⟩, .start⟩
    let result := (optional (satisfy (· = 'a')) entry).run store
    result.2.reads.toList = [⟨.rune, entry, .ok (.error (.invalidEncoding .start))⟩] ∧
      result.1 = .ok (.error ⟨.invalidEncoding .start, entry⟩) := by
  intro store entry result
  have hread : result.2.reads.toList =
      [⟨.rune, entry, .ok (.error (.invalidEncoding .start))⟩] := by
    decide +kernel
  have hentry : store.Known entry := Or.inr (Or.inl ⟨0, by decide, rfl⟩)
  obtain ⟨attempts, hreads, hraised⟩ :=
    hard_error_raised (.optional (.satisfy (· = 'a'))) .refl hentry
  obtain rfl : attempts = [⟨.rune, entry, .ok (.error (.invalidEncoding .start))⟩] :=
    hreads.symm.trans hread
  exact ⟨hread, hraised _ (List.mem_singleton.2 rfl) (.invalidEncoding .start) rfl rfl⟩

end StreamParse.Parser
