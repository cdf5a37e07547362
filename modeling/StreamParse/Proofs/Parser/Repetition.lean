import StreamParse.Proofs.Parser.Onward
import StreamParse.Proofs.Parser.Rewind

/-!
# Repetitions

A repetition takes turns: it parses from where the last turn ended for as long as each turn takes
some input.  What comes after the turns decides its result, and nothing else does: a match that
takes no input is recorded and ends it, an outcome that falls through ends it without a value, and
any other failure is that of the whole.

Turns that take input are never more than there is input left.  So on every input a repetition ends
unless one of its turns does not, and it records one value more than that at most.
-/

namespace StreamParse

open Store Session

theorem Error.fallsThrough_iff {error : Error} :
    error.fallsThrough = true ↔ error = .noMatch ∨ error = .endOfInput := by
  cases error <;> simp [fallsThrough]

theorem Error.fallsThrough_eq_false_iff {error : Error} :
    error.fallsThrough = false ↔ error ≠ .noMatch ∧ error ≠ .endOfInput := by
  cases error <;> simp [fallsThrough]

namespace Parser

variable {α : Type} {p : Parser α} {entry cursor next : Cursor} {store store₁ store₂ : Store}
  {values : Array α} {value : α} {failure : Failure} {fault : Fault}

/-- What turns of a repetition collect: one after the other they give `values`, each takes some
input, and they lead from the entry to a cursor and a store.  Offsets are addresses, those of the
cursors that a parser gives as well. -/
inductive Collected (p : Parser α) (entry : Cursor) (store : Store) :
    Array α → Cursor → Store → Prop
  | start : Collected p entry store #[] entry store
  | turn {values : Array α} {cursor next : Cursor} {store₁ store₂ : Store} {value : α} :
    Collected p entry store values cursor store₁ →
      (p cursor).run store₁ = (.ok (.ok (value, next)), store₂) →
        cursor.position.offset < next.position.offset → next.position.offset < offsetLimit →
          Collected p entry store (values.push value) next store₂

/-- What a repetition comes to.  After some turns the parser is tried once more, and the repetition
ends with whatever that gives, other than a further turn. -/
inductive Repeats (p : Parser α) (entry : Cursor) (store : Store) :
    Except Fault (Parsed (Array α)) × Store → Prop
  | fellThrough {values : Array α} {cursor : Cursor} {store₁ store₂ : Store} {failure : Failure} :
    Collected p entry store values cursor store₁ →
      (p cursor).run store₁ = (.ok (.error failure), store₂) → failure.error.fallsThrough = true →
        Repeats p entry store (.ok (.ok (values, cursor)), store₂)
  | idle {values : Array α} {cursor next : Cursor} {store₁ store₂ : Store} {value : α} :
    Collected p entry store values cursor store₁ →
      (p cursor).run store₁ = (.ok (.ok (value, next)), store₂) →
        next.position.offset ≤ cursor.position.offset →
          Repeats p entry store (.ok (.ok (values.push value, next)), store₂)
  | refused {values : Array α} {cursor : Cursor} {store₁ store₂ : Store} {failure : Failure} :
    Collected p entry store values cursor store₁ →
      (p cursor).run store₁ = (.ok (.error failure), store₂) →
        failure.error.fallsThrough = false →
          Repeats p entry store (.ok (.error (failure.rewind entry)), store₂)
  | faulted {values : Array α} {cursor : Cursor} {store₁ store₂ : Store} {fault : Fault} :
    Collected p entry store values cursor store₁ → (p cursor).run store₁ = (.error fault, store₂) →
      Repeats p entry store (.error fault, store₂)
  | overflowed {values : Array α} {cursor next : Cursor} {store₁ store₂ : Store} {value : α} :
    Collected p entry store values cursor store₁ →
      (p cursor).run store₁ = (.ok (.ok (value, next)), store₂) →
        cursor.position.offset < next.position.offset → offsetLimit ≤ next.position.offset →
          Repeats p entry store (.error (.inconsistent .offsetOverflow), store₂)

/-! ## What one more try makes of a repetition -/

theorem run_collect_of_turn
    (hrun : (p cursor).run store = (.ok (.ok (value, next)), store₁))
    (hlt : cursor.position.offset < next.position.offset)
    (hlimit : next.position.offset < offsetLimit) :
    (collect p entry values cursor).run store =
      (collect p entry (values.push value) next).run store₁ := by
  rw [collect]
  simp only [Action.run_bind, hrun]
  rw [if_neg (Nat.not_le_of_lt hlt), if_neg (Nat.not_le_of_lt hlimit)]

theorem run_collect_of_overflow
    (hrun : (p cursor).run store = (.ok (.ok (value, next)), store₁))
    (hlt : cursor.position.offset < next.position.offset)
    (hlimit : offsetLimit ≤ next.position.offset) :
    (collect p entry values cursor).run store =
      (.error (.inconsistent .offsetOverflow), store₁) := by
  rw [collect]
  simp only [Action.run_bind, hrun]
  rw [if_neg (Nat.not_le_of_lt hlt), if_pos hlimit, Action.run_fault]

theorem run_collect_of_idle
    (hrun : (p cursor).run store = (.ok (.ok (value, next)), store₁))
    (hle : next.position.offset ≤ cursor.position.offset) :
    (collect p entry values cursor).run store = (.ok (.ok (values.push value, next)), store₁) := by
  rw [collect]
  simp only [Action.run_bind, hrun]
  rw [if_pos hle, Action.run_pure]

theorem run_collect_of_failure
    (hrun : (p cursor).run store = (.ok (.error failure), store₁)) :
    (collect p entry values cursor).run store =
      (.ok (if failure.error.fallsThrough then .ok (values, cursor)
        else .error (failure.rewind entry)), store₁) := by
  rw [collect]
  simp only [Action.run_bind, hrun]
  split
  · rfl
  · rfl

theorem run_collect_of_fault (hrun : (p cursor).run store = (.error fault, store₁)) :
    (collect p entry values cursor).run store = (.error fault, store₁) := by
  rw [collect]
  simp only [Action.run_bind, hrun]

/-! ## Repetitions as a whole -/

/-- After its turns a repetition goes on from where they led. -/
theorem Collected.run_many (h : Collected p entry store values cursor store₁) :
    (many p entry).run store = (collect p entry values cursor).run store₁ := by
  induction h with
  | start => rfl
  | turn _ hrun hlt hlimit ih => rw [ih, run_collect_of_turn hrun hlt hlimit]

/-- Going on from some turns, a repetition comes to an end.  Every further turn leaves less room for
offsets. -/
theorem Collected.repeats_collect (h : Collected p entry store values cursor store₁) :
    Repeats p entry store ((collect p entry values cursor).run store₁) := by
  induction hleft : offsetLimit - cursor.position.offset using Nat.strongRecOn
    generalizing values cursor store₁ with
  | ind left ih =>
      rcases hrun : (p cursor).run store₁ with ⟨fault | failure | ⟨value, next⟩, store₂⟩
      · rw [run_collect_of_fault hrun]
        exact .faulted h hrun
      · rw [run_collect_of_failure hrun]
        split
        · next hfalls => exact .fellThrough h hrun hfalls
        · next hfalls => exact .refused h hrun (Bool.eq_false_of_not_eq_true hfalls)
      · rcases Nat.lt_or_ge cursor.position.offset next.position.offset with hlt | hle
        · rcases Nat.lt_or_ge next.position.offset offsetLimit with hlimit | hlimit
          · rw [run_collect_of_turn hrun hlt hlimit]
            exact ih (offsetLimit - next.position.offset) (by omega) (h.turn hrun hlt hlimit) rfl
          · rw [run_collect_of_overflow hrun hlt hlimit]
            exact .overflowed h hrun hlt hlimit
        · rw [run_collect_of_idle hrun hle]
          exact .idle h hrun hle

/-- A repetition is run exactly as its turns, and what comes after them, say. -/
theorem run_many_iff {result : Except Fault (Parsed (Array α)) × Store} :
    (many p entry).run store = result ↔ Repeats p entry store result := by
  constructor
  · rintro rfl
    exact Collected.start.repeats_collect
  · intro h
    cases h with
    | fellThrough hturns hrun hfalls =>
        rw [hturns.run_many, run_collect_of_failure hrun, if_pos hfalls]
    | idle hturns hrun hle => rw [hturns.run_many, run_collect_of_idle hrun hle]
    | refused hturns hrun hfalls =>
        rw [hturns.run_many, run_collect_of_failure hrun, if_neg (by simp [hfalls])]
    | faulted hturns hrun => rw [hturns.run_many, run_collect_of_fault hrun]
    | overflowed hturns hrun hlt hlimit =>
        rw [hturns.run_many, run_collect_of_overflow hrun hlt hlimit]

/-- A repetition matches where, after its turns, either a match took no input or the parser fell
through. -/
theorem run_many_ok_iff :
    (many p entry).run store = (.ok (.ok (values, cursor)), store₂) ↔
      (∃ before last store₁ value, Collected p entry store before last store₁ ∧
        (p last).run store₁ = (.ok (.ok (value, cursor)), store₂) ∧
          cursor.position.offset ≤ last.position.offset ∧ values = before.push value) ∨
      ∃ store₁ failure, Collected p entry store values cursor store₁ ∧
        (p cursor).run store₁ = (.ok (.error failure), store₂) ∧
          failure.error.fallsThrough = true := by
  rw [run_many_iff]
  constructor
  · intro h
    cases h with
    | fellThrough hturns hrun hfalls => exact Or.inr ⟨_, _, hturns, hrun, hfalls⟩
    | idle hturns hrun hle => exact Or.inl ⟨_, _, _, _, hturns, hrun, hle, rfl⟩
  · rintro (⟨before, last, store₁, value, hturns, hrun, hle, rfl⟩ |
      ⟨store₁, failure, hturns, hrun, hfalls⟩)
    · exact .idle hturns hrun hle
    · exact .fellThrough hturns hrun hfalls

/-- A repetition fails where, after its turns, the parser failed without falling through. -/
theorem run_many_error_iff :
    (many p entry).run store = (.ok (.error failure), store₂) ↔
      ∃ values cursor store₁ refusal, Collected p entry store values cursor store₁ ∧
        (p cursor).run store₁ = (.ok (.error refusal), store₂) ∧
          refusal.error.fallsThrough = false ∧ failure = ⟨refusal.error, entry⟩ := by
  rw [run_many_iff]
  constructor
  · intro h
    cases h with
    | refused hturns hrun hfalls => exact ⟨_, _, _, _, hturns, hrun, hfalls, rfl⟩
  · rintro ⟨values, cursor, store₁, refusal, hturns, hrun, hfalls, rfl⟩
    exact .refused hturns hrun hfalls

/-- A repetition ends in a fault where one of its tries does, or where a cursor has no address. -/
theorem run_many_fault_iff :
    (many p entry).run store = (.error fault, store₂) ↔
      ∃ values cursor store₁, Collected p entry store values cursor store₁ ∧
        ((p cursor).run store₁ = (.error fault, store₂) ∨
          fault = .inconsistent .offsetOverflow ∧
            ∃ value next, (p cursor).run store₁ = (.ok (.ok (value, next)), store₂) ∧
              cursor.position.offset < next.position.offset ∧
                offsetLimit ≤ next.position.offset) := by
  rw [run_many_iff]
  constructor
  · intro h
    cases h with
    | faulted hturns hrun => exact ⟨_, _, _, hturns, Or.inl hrun⟩
    | overflowed hturns hrun hlt hlimit =>
        exact ⟨_, _, _, hturns, Or.inr ⟨rfl, _, _, hrun, hlt, hlimit⟩⟩
  · rintro ⟨values, cursor, store₁, hturns, hrun | ⟨rfl, value, next, hrun, hlt, hlimit⟩⟩
    · exact .faulted hturns hrun
    · exact .overflowed hturns hrun hlt hlimit

/-! ## Repetitions on an input -/

section

variable {grammar : Grammar} {inputs : List (String × Input)} {i : Nat} {own : Fault → Prop}
  {content : Content}

theorem Collected.offset_add_size_le (h : Collected p entry store values cursor store₁) :
    entry.position.offset + values.size ≤ cursor.position.offset := by
  induction h with
  | start => exact Nat.le_refl _
  | turn _ _ hlt _ ih =>
      rw [Array.size_push]
      omega

theorem Collected.turns (h : Collected p entry store values cursor store₁) :
    p.Turns entry store cursor store₁ := by
  induction h with
  | start => exact .start
  | turn _ hrun hlt _ ih => exact ih.turn hrun hlt

theorem Turns.stands
    (hp : p.GoesOnward grammar inputs i own) (h : Stands grammar inputs i store entry)
    (hturns : p.Turns entry store cursor store₁) :
    Stands grammar inputs i store₁ cursor := by
  induction hturns with
  | start => exact h
  | turn _ hrun _ ih =>
      obtain ⟨⟨hreaches, hgives⟩, -⟩ := hp ih
      rw [hrun] at hreaches hgives
      exact (ih.after hreaches).onward (hgives _ rfl)

theorem Collected.offset_add_size_le_length
    (hp : p.GoesOnward grammar inputs i own) (h : Stands grammar inputs i store entry)
    (hcontent : (Input.contents inputs)[i]? = some content)
    (hturns : Collected p entry store values cursor store₁) :
    entry.position.offset + values.size ≤ content.bytes.length :=
  hturns.offset_add_size_le.trans ((hturns.turns.stands hp h).offset_le hcontent)

/-- A repetition has at most one value more than there is input left. -/
theorem size_le_of_many
    (hp : p.GoesOnward grammar inputs i own) (h : Stands grammar inputs i store entry)
    (hcontent : (Input.contents inputs)[i]? = some content)
    (hrun : ((many p entry).run store).1 = .ok (.ok (values, cursor))) :
    values.size ≤ content.bytes.length - entry.position.offset + 1 := by
  rcases run_many_ok_iff.1 (Prod.ext hrun rfl) with
    ⟨before, last, store₁, value, hturns, -, -, rfl⟩ | ⟨store₁, failure, hturns, -⟩
  · have hle := hturns.offset_add_size_le_length hp h hcontent
    rw [Array.size_push]
    omega
  · have hle := hturns.offset_add_size_le_length hp h hcontent
    omega

/-- On an input that offsets can address, a repetition ends in a fault only where a try does. -/
theorem exists_turns_of_fault
    (hp : p.GoesOnward grammar inputs i own) (h : Stands grammar inputs i store entry)
    (hcontent : (Input.contents inputs)[i]? = some content)
    (haddress : content.bytes.length < offsetLimit)
    (hfault : ((many p entry).run store).1 = .error fault) :
    ∃ values cursor store₁, Collected p entry store values cursor store₁ ∧
      ((p cursor).run store₁).1 = .error fault := by
  obtain ⟨values, cursor, store₁, hturns, hrun | ⟨-, value, next, hrun, -, hlimit⟩⟩ :=
    run_many_fault_iff.1 (Prod.ext hfault rfl)
  · exact ⟨values, cursor, store₁, hturns, by rw [hrun]⟩
  · have hstands := hturns.turns.stands hp h
    obtain ⟨⟨hreaches, hgives⟩, -⟩ := hp hstands
    rw [hrun] at hreaches hgives
    have hle := ((hstands.after hreaches).onward (hgives _ rfl)).offset_le hcontent
    exact absurd (hlimit.trans hle) (Nat.not_le_of_lt haddress)

/-- Without faults of the parser's own and of the input, a repetition comes to a result. -/
theorem exists_parsed_of_many
    (hp : p.GoesOnward grammar inputs i own) (h : Stands grammar inputs i store entry)
    (hcontent : (Input.contents inputs)[i]? = some content)
    (haddress : content.bytes.length < offsetLimit) (hown : ∀ fault, ¬ own fault)
    (hclaims : ∀ conduct, content.ending ≠ .overclaimed conduct) :
    ∃ parsed, ((many p entry).run store).1 = .ok parsed := by
  rcases hrun : ((many p entry).run store).1 with fault | parsed
  · obtain ⟨-, hfaults⟩ := many_onward hp h
    rcases hfaults fault hrun with hfault | ⟨content', hcontent', hexcused⟩
    · exact absurd hfault (hown fault)
    · obtain rfl : content = content' := Option.some.inj (hcontent.symm.trans hcontent')
      rcases hexcused with ⟨conduct, hending, -⟩ | ⟨hlimit, -⟩
      · exact absurd hending (hclaims conduct)
      · exact absurd hlimit (Nat.not_le_of_lt haddress)
  · exact ⟨parsed, rfl⟩

end

/-- Which errors a repetition never fails with. -/
theorem fallsThrough_of_many
    (hrun : ((many p entry).run store).1 = .ok (.error failure)) :
    failure.error.fallsThrough = false := by
  obtain ⟨values, cursor, store₁, refusal, -, -, hfalls, rfl⟩ :=
    run_many_error_iff.1 (Prod.ext hrun rfl)
  exact hfalls

/-- A repetition is exact and bounded.  Whatever the parser is, from every cursor it gives values
and a cursor exactly if turns that take input lead from one cursor to the next, giving the values,
up to where either a last match takes no input, after which the parser is not tried again, or the
parser falls through.  It fails exactly if after such turns the parser fails with an error that does
not fall through, and then with that error and the entry.

If the parser is built from those of the library, and from others that go onward or back, there
are no more turns than there is input left and at most one value more.  Then only a try that ends in
a fault ends the repetition in a fault, and with parsers that have no faults of their own, on an
input that does not overclaim, it always comes to a result. -/
theorem many_exact (p : Parser α) (entry : Cursor) (store : Store) :
    (∀ values cursor store₂,
      (many p entry).run store = (.ok (.ok (values, cursor)), store₂) ↔
        (∃ before last store₁ value, Collected p entry store before last store₁ ∧
          (p last).run store₁ = (.ok (.ok (value, cursor)), store₂) ∧
            cursor.position.offset ≤ last.position.offset ∧ values = before.push value) ∨
        ∃ store₁ failure, Collected p entry store values cursor store₁ ∧
          (p cursor).run store₁ = (.ok (.error failure), store₂) ∧
            (failure.error = .noMatch ∨ failure.error = .endOfInput)) ∧
    (∀ failure store₂,
      (many p entry).run store = (.ok (.error failure), store₂) ↔
        ∃ values cursor store₁ refusal, Collected p entry store values cursor store₁ ∧
          (p cursor).run store₁ = (.ok (.error refusal), store₂) ∧
            (refusal.error ≠ .noMatch ∧ refusal.error ≠ .endOfInput) ∧
              failure = ⟨refusal.error, entry⟩) ∧
    (∀ failure, ((many p entry).run store).1 = .ok (.error failure) →
      failure.error ≠ .noMatch ∧ failure.error ≠ .endOfInput) ∧
    ∀ grammar inputs i own content, Composed (GoesOnward grammar inputs i own) p →
      Stands grammar inputs i store entry → (Input.contents inputs)[i]? = some content →
        (∀ values cursor store₁, Collected p entry store values cursor store₁ →
          entry.position.offset + values.size ≤ content.bytes.length) ∧
        (∀ values cursor, ((many p entry).run store).1 = .ok (.ok (values, cursor)) →
          values.size ≤ content.bytes.length - entry.position.offset + 1) ∧
        (content.bytes.length < offsetLimit →
          (∀ fault, ((many p entry).run store).1 = .error fault →
            ∃ values cursor store₁, Collected p entry store values cursor store₁ ∧
              ((p cursor).run store₁).1 = .error fault) ∧
          ((∀ fault, ¬ own fault) → (∀ conduct, content.ending ≠ .overclaimed conduct) →
            ∃ parsed, ((many p entry).run store).1 = .ok parsed)) := by
  refine ⟨?_, ?_, ?_, ?_⟩
  · intro values cursor store₂
    simpa only [Error.fallsThrough_iff] using run_many_ok_iff
  · intro failure store₂
    simpa only [Error.fallsThrough_eq_false_iff] using run_many_error_iff
  · intro failure hrun
    exact Error.fallsThrough_eq_false_iff.1 (fallsThrough_of_many hrun)
  · intro grammar inputs i own content hcomposed h hcontent
    have hp := hcomposed.goesOnward
    refine ⟨?_, ?_, ?_⟩
    · intro values cursor store₁ hturns
      exact hturns.offset_add_size_le_length hp h hcontent
    · intro values cursor hrun
      exact size_le_of_many hp h hcontent hrun
    · intro haddress
      refine ⟨?_, ?_⟩
      · intro fault hfault
        exact exists_turns_of_fault hp h hcontent haddress hfault
      · intro hown hclaims
        exact exists_parsed_of_many hp h hcontent haddress hown hclaims

/-- Two bytes from two pieces, and where they end the match that takes no input: as many values as
there can be. -/
theorem many_exact_of_pieces :
    let inputs : List (String × Input) :=
      [("s", .streaming ⟨.supplier, [.deliver [0x61] false, .deliver [0x62] true]⟩ default)]
    let store := (Session.start ⟨[]⟩ inputs).store
    let entry : Cursor := .origin 0
    let stop : Cursor := ⟨some ⟨0, ⟨2, 1⟩⟩, ⟨2, 1, 3⟩⟩
    let p : Parser (Option UInt8) := optional (satisfyByte fun _ => true)
    let result := (many p entry).run store
    result.1 = .ok (.ok (#[some 0x61, some 0x62, none], stop)) ∧
      (∃ last store₁, Collected p entry store #[some 0x61, some 0x62] last store₁ ∧
        (p last).run store₁ = (.ok (.ok (none, stop)), result.2) ∧ 2 ≤ last.position.offset) ∧
        ∃ parsed, result.1 = .ok parsed := by
  intro inputs store entry stop p result
  have hstands : Stands ⟨[]⟩ inputs 0 store entry :=
    ⟨.refl, Or.inr (Or.inl ⟨0, by decide +kernel, rfl⟩), ⟨_, rfl⟩⟩
  have hcontent : (Input.contents inputs)[0]? = some ⟨[0x61, 0x62], .ended⟩ := by decide +kernel
  have hp : Composed (GoesOnward ⟨[]⟩ inputs 0 fun _ => False) p := .optional (.satisfyByte _)
  have hvalue : result.1 = .ok (.ok (#[some 0x61, some 0x62, none], stop)) := by decide +kernel
  obtain ⟨hok, -, -, hbounded⟩ := many_exact p entry store
  obtain ⟨hturns, hsize, hresult⟩ := hbounded ⟨[]⟩ inputs 0 _ _ hp hstands hcontent
  have hclaims : ∀ conduct, Ending.ended ≠ .overclaimed conduct := by simp
  refine ⟨hvalue, ?_, (hresult (by decide)).2 (fun _ h => h) hclaims⟩
  rcases (hok _ _ _).1 (Prod.ext hvalue rfl : _ = (_, result.2)) with
    ⟨before, last, store₁, value, hbefore, hrun, hle, hvalues⟩ | ⟨store₁, failure, hall, -⟩
  · have hpush : #[some 0x61, some 0x62].push none = before.push value := hvalues
    obtain ⟨rfl, rfl⟩ := Array.push_eq_push.1 hpush
    exact ⟨last, store₁, hbefore, hrun, hle⟩
  · exact absurd (hturns _ _ _ hall) (by decide)

end Parser
end StreamParse
