import StreamParse.Parser.Capture
import StreamParse.Proofs.Parser.Orderly

/-!
# Parsers refine their references

A parser that refines a reference comes to what the reference says, from every cursor that sees the
content, and an error that it raises goes back to that cursor.  On the way it reads as it likes;
but an error of a read that does not just fall through is the error that it raises.
-/

namespace StreamParse

/-- The form in which a parser that was started at `entry` gives its result. -/
def Parsed.raise {α : Type} (entry : Cursor) (result : Except Error (α × Cursor)) : Parsed α :=
  result.mapError fun error => ⟨error, entry⟩

@[simp] theorem Parsed.raise_ok {α : Type} (entry : Cursor) (success : α × Cursor) :
    Parsed.raise entry (.ok success) = .ok success := rfl

@[simp] theorem Parsed.raise_error {α : Type} (entry : Cursor) (error : Error) :
    (Parsed.raise entry (.error error) : Parsed α) = .error ⟨error, entry⟩ := rfl

namespace Parser

variable {α β γ : Type}

/-- From every cursor, the parser comes to what the reference says. -/
def Refines (p : Parser α) (ref : Reference α) : Prop :=
  ∀ ⦃store : Store⦄ ⦃i : Nat⦄ ⦃view : Option Content⦄ ⦃entry : Cursor⦄,
    store.Sees i view entry →
      store.Comes i view (Parsed.raise entry) (ref view entry.position) ((p entry).run store)

/-! ## Reads -/

theorem comes_readUnits
    [DecidableEq α] {r : Reading α} (account : r.Account) (expected : List α) {store : Store}
    {i : Nat} {view : Option Content} {cursor : Cursor} (hsees : store.Sees i view cursor) :
    store.Comes i view (fun result => result.map Prod.snd)
      (Reference.exactly account expected view cursor.position)
      ((readUnits r expected cursor).run store) := by
  induction expected generalizing store cursor with
  | nil => exact .success (.refl store) (.refl store none) hsees
  | cons unit rest ih =>
      have hread := account.comes_read hsees
      simp only [readUnits, Action.run_bind, Reference.exactly, Reference.bind]
      generalize account.reference view cursor.position = outcome at hread ⊢
      generalize (cursor.read r).run store = result at hread ⊢
      cases hread with
      | fault hheeds => exact .fault hheeds
      | error hkeeps hheeds => exact .error hkeeps hheeds
      | @success found next store' hkeeps hheeds hsees' =>
          by_cases hfound : found = unit
          · simp only [id, if_pos hfound]
            exact .after hkeeps hheeds (ih hsees')
          · simp only [id, if_neg hfound]
            exact .error hkeeps (hheeds.of_none _)

theorem exactly_refines
    [DecidableEq α] {r : Reading α} (account : r.Account) (expected : List α) :
    (exactly r expected).Refines (.exactly account expected) := by
  intro store i view entry hsees
  have hrun := comes_readUnits account expected hsees
  simp only [exactly, Action.run_bind]
  generalize Reference.exactly account expected view entry.position = outcome at hrun ⊢
  generalize (readUnits r expected entry).run store = result at hrun ⊢
  cases hrun with
  | fault hheeds => exact .fault hheeds
  | error hkeeps hheeds => exact .error hkeeps hheeds
  | success hkeeps hheeds hsees' => exact .success hkeeps hheeds hsees'

theorem satisfying_refines {r : Reading α} (account : r.Account) (accepts : α → Bool) :
    (satisfying r accepts).Refines (.satisfying account accepts) := by
  intro store i view entry hsees
  have hread := account.comes_read hsees
  simp only [satisfying, Action.run_bind, Reference.satisfying, Reference.bind]
  generalize account.reference view entry.position = outcome at hread ⊢
  generalize (entry.read r).run store = result at hread ⊢
  cases hread with
  | fault hheeds => exact .fault hheeds
  | error hkeeps hheeds => exact .error hkeeps hheeds
  | @success unit cursor store' hkeeps hheeds hsees' =>
      by_cases haccepts : accepts unit
      · simp only [id, if_pos haccepts]
        exact .success hkeeps hheeds hsees'
      · simp only [id, if_neg haccepts]
        exact .error hkeeps (hheeds.of_none _)

theorem endOfInput_refines : endOfInput.Refines .endOfInput := by
  intro store i view entry hsees
  have hread := Reading.Account.bytes.comes_read hsees
  simp only [endOfInput, Cursor.byte, Action.run_bind, Reference.endOfInput]
  generalize Reading.Account.bytes.reference view entry.position = outcome at hread ⊢
  generalize (entry.read .bytes).run store = result at hread ⊢
  cases hread with
  | fault hheeds => exact .fault hheeds
  | success hkeeps hheeds hsees' => exact .error hkeeps (hheeds.of_none _)
  | @error error store' hkeeps hheeds =>
      cases error with
      | endOfInput => exact .success hkeeps (hheeds.of_fallsThrough rfl) (hkeeps hsees)
      | noMatch => exact .error hkeeps hheeds
      | invalidEncoding position => exact .error hkeeps hheeds
      | positioned position cause => exact .error hkeeps hheeds

/-! ## Combinations -/

theorem comes_rewind
    {store : Store} {i : Nat} {view : Option Content} {cursor : Cursor} {outcome : Outcome α}
    {x : Run (Parsed α)} (h : store.Comes i view (Parsed.raise cursor) outcome (x.run store))
    (entry : Cursor) :
    store.Comes i view (Parsed.raise entry) outcome
      ((x >>= fun parsed => pure (parsed.rewind entry)).run store) := by
  rw [Action.run_bind]
  generalize x.run store = result at h ⊢
  cases h with
  | fault hheeds => exact .fault hheeds
  | error hkeeps hheeds => exact .error hkeeps hheeds
  | success hkeeps hheeds hsees => exact .success hkeeps hheeds hsees

theorem bind_refines
    {p : Parser α} {next : α → Parser β} {ref : Reference α} {refs : α → Reference β}
    (hp : p.Refines ref) (hnext : ∀ a, (next a).Refines (refs a)) :
    (bind p next).Refines (ref.bind refs) := by
  intro store i view entry hsees
  have hrun := hp hsees
  simp only [bind, Action.run_bind, Reference.bind]
  generalize ref view entry.position = outcome at hrun ⊢
  generalize (p entry).run store = result at hrun ⊢
  cases hrun with
  | fault hheeds => exact .fault hheeds
  | error hkeeps hheeds => exact .error hkeeps hheeds
  | @success value cursor store' hkeeps hheeds hsees' =>
      exact .after hkeeps hheeds (comes_rewind (hnext value hsees') entry)

theorem sequence_refines
    {p : Parser α} {q : Parser β} {first : Reference α} {second : Reference β}
    (combine : α → β → Except Cause γ) (hp : p.Refines first) (hq : q.Refines second) :
    (sequence p q combine).Refines (.sequence first second combine) := by
  intro store i view entry hsees
  have hrun := hp hsees
  simp only [sequence, Action.run_bind, Reference.sequence, Reference.enter, Reference.bind]
  generalize first view entry.position = outcome at hrun ⊢
  generalize (p entry).run store = result at hrun ⊢
  cases hrun with
  | fault hheeds => exact .fault hheeds
  | error hkeeps hheeds => exact .error hkeeps hheeds
  | @success a middle store₁ hkeeps hheeds hsees₁ =>
      refine .after hkeeps hheeds ?_
      have hrun' := hq hsees₁
      simp only [Parsed.raise_ok, Action.run_bind]
      generalize second view middle.position = outcome' at hrun' ⊢
      generalize (q middle).run store₁ = result' at hrun' ⊢
      cases hrun' with
      | fault hheeds' => exact .fault hheeds'
      | error hkeeps' hheeds' => exact .error hkeeps' hheeds'
      | @success b cursor store₂ hkeeps' hheeds' hsees₂ =>
          simp only [Parsed.raise_ok]
          cases combine a b with
          | error cause => exact .error hkeeps' (hheeds'.of_none _)
          | ok value => exact .success hkeeps' hheeds' hsees₂

theorem map_refines {p : Parser α} {ref : Reference α} (f : α → β) (hp : p.Refines ref) :
    (map f p).Refines (.map f ref) := by
  intro store i view entry hsees
  have hrun := hp hsees
  simp only [map, Action.run_bind, Reference.map, Reference.bind]
  generalize ref view entry.position = outcome at hrun ⊢
  generalize (p entry).run store = result at hrun ⊢
  cases hrun with
  | fault hheeds => exact .fault hheeds
  | error hkeeps hheeds => exact .error hkeeps hheeds
  | success hkeeps hheeds hsees' => exact .success hkeeps hheeds hsees'

theorem or_refines
    {p q : Parser α} {first second : Reference α} (hp : p.Refines first)
    (hq : q.Refines second) : (or p q).Refines (.or first second) := by
  intro store i view entry hsees
  have hrun := hp hsees
  simp only [or, Action.run_bind, Reference.or]
  generalize first view entry.position = outcome at hrun ⊢
  generalize (p entry).run store = result at hrun ⊢
  cases hrun with
  | fault hheeds => exact .fault hheeds
  | success hkeeps hheeds hsees' => exact .success hkeeps hheeds hsees'
  | @error error store' hkeeps hheeds =>
      by_cases hsoft : error.fallsThrough
      · simp only [Parsed.raise_error, if_pos hsoft]
        exact .after hkeeps (hheeds.of_fallsThrough hsoft)
          (comes_rewind (hq (hkeeps hsees)) entry)
      · simp only [Parsed.raise_error, if_neg hsoft]
        exact .error hkeeps hheeds

theorem optional_refines {p : Parser α} {ref : Reference α} (hp : p.Refines ref) :
    (optional p).Refines ref.optional := by
  intro store i view entry hsees
  have hrun := hp hsees
  simp only [optional, Action.run_bind, Reference.optional, Reference.or, Reference.map,
    Reference.bind]
  generalize ref view entry.position = outcome at hrun ⊢
  generalize (p entry).run store = result at hrun ⊢
  cases hrun with
  | fault hheeds => exact .fault hheeds
  | success hkeeps hheeds hsees' => exact .success hkeeps hheeds hsees'
  | @error error store' hkeeps hheeds =>
      by_cases hsoft : error.fallsThrough
      · simp only [Parsed.raise_error, if_pos hsoft]
        exact .success hkeeps (hheeds.of_fallsThrough hsoft) (hkeeps hsees)
      · simp only [Parsed.raise_error, if_neg hsoft]
        exact .error hkeeps hheeds

theorem comes_collect
    {p : Parser α} {ref : Reference α} (hp : p.Refines ref) (entry : Cursor) (values : Array α)
    {store : Store} {i : Nat} {view : Option Content} {cursor : Cursor}
    (hsees : store.Sees i view cursor) :
    store.Comes i view (Parsed.raise entry) (ref.collect values view cursor.position)
      ((collect p entry values cursor).run store) := by
  induction hleft : offsetLimit - cursor.position.offset using Nat.strongRecOn
    generalizing store values cursor with
  | ind left ih =>
      have hrun := hp hsees
      rw [collect, Reference.collect]
      simp only [Action.run_bind]
      generalize ref view cursor.position = outcome at hrun ⊢
      generalize (p cursor).run store = result at hrun ⊢
      cases hrun with
      | fault hheeds => exact .fault hheeds
      | @error error store' hkeeps hheeds =>
          by_cases hsoft : error.fallsThrough
          · simp only [Parsed.raise_error, if_pos hsoft]
            exact .success hkeeps (hheeds.of_fallsThrough hsoft) (hkeeps hsees)
          · simp only [Parsed.raise_error, if_neg hsoft]
            exact .error hkeeps hheeds
      | @success value next store' hkeeps hheeds hsees' =>
          simp only [Parsed.raise_ok]
          by_cases hstop : next.position.offset ≤ cursor.position.offset
          · simp only [if_pos hstop]
            exact .success hkeeps hheeds hsees'
          · simp only [if_neg hstop]
            by_cases hlimit : offsetLimit ≤ next.position.offset
            · simp only [if_pos hlimit]
              exact .fault hheeds
            · simp only [if_neg hlimit]
              exact .after hkeeps hheeds
                (ih (offsetLimit - next.position.offset) (by omega) _ hsees' rfl)

theorem many_refines {p : Parser α} {ref : Reference α} (hp : p.Refines ref) :
    (many p).Refines (ref.collect #[]) := fun _ _ _ entry hsees =>
  comes_collect hp entry #[] hsees

/-! ## Captures -/

theorem captureBytes_refines
    {p : Parser α} {ref : Reference α} (hp : p.Refines ref) (horderly : ref.Orderly) :
    (captureBytes p).Refines (ref.capture .bytesFrom) := by
  intro store i view entry hsees
  have hrun := hp hsees
  simp only [captureBytes, Action.run_bind, Reference.capture, Reference.enter, Reference.bind]
  generalize hout : ref view entry.position = outcome at hrun ⊢
  generalize (p entry).run store = result at hrun ⊢
  cases hrun with
  | fault hheeds => exact .fault hheeds
  | error hkeeps hheeds => exact .error hkeeps hheeds
  | success hkeeps hheeds hsees' =>
      have hle := horderly.advances hout
      cases view with
      | none =>
          simp only [Parsed.raise_ok, Action.run_bind,
            Cursor.run_bytesUntil_of_detached (hkeeps hsees) hle]
          exact .fault hheeds
      | some content =>
          simp only [Parsed.raise_ok, Action.run_bind,
            Cursor.run_bytesUntil (hkeeps hsees) hsees' hle]
          exact .success hkeeps hheeds hsees'

theorem captureText_refines
    {p : Parser α} {ref : Reference α} (hp : p.Refines ref) (horderly : ref.Orderly) :
    (captureText p).Refines (ref.capture .textFrom) := by
  intro store i view entry hsees
  have hrun := hp hsees
  simp only [captureText, Action.run_bind, Reference.capture, Reference.enter, Reference.bind]
  generalize hout : ref view entry.position = outcome at hrun ⊢
  generalize (p entry).run store = result at hrun ⊢
  cases hrun with
  | fault hheeds => exact .fault hheeds
  | error hkeeps hheeds => exact .error hkeeps hheeds
  | @success value cursor store' hkeeps hheeds hsees' =>
      have hle := horderly.advances hout
      refine .after hkeeps hheeds ?_
      cases view with
      | none =>
          simp only [Parsed.raise_ok, Cursor.textUntil, Action.run_bind,
            Cursor.run_bytesUntil_of_detached (hkeeps hsees) hle]
          exact .fault (.refl store' none)
      | some content =>
          obtain ⟨store'', htext, hkeeps', hheeds'⟩ :=
            Cursor.run_textUntil (hkeeps hsees) hsees' hle
          simp only [Parsed.raise_ok, Action.run_bind, htext, Reference.textFrom,
            Reference.settle]
          cases content.textBetween entry.position cursor.position with
          | error error => exact .error hkeeps' (hheeds'.of_none _)
          | ok text => exact .success hkeeps' hheeds' (hkeeps' hsees')

theorem capturePositions_refines
    {p : Parser α} {ref : Reference α} (hp : p.Refines ref) :
    (capturePositions p).Refines (ref.capture .positionsFrom) := by
  intro store i view entry hsees
  have hrun := hp hsees
  simp only [capturePositions, Action.run_bind, Reference.capture, Reference.enter,
    Reference.bind]
  generalize ref view entry.position = outcome at hrun ⊢
  generalize (p entry).run store = result at hrun ⊢
  cases hrun with
  | fault hheeds => exact .fault hheeds
  | error hkeeps hheeds => exact .error hkeeps hheeds
  | success hkeeps hheeds hsees' => exact .success hkeeps hheeds hsees'

/-! ## Numbers and line breaks -/

/-- The verdict on a numeral raises the error that ended its digits, if that does not fall
through. -/
theorem heeds_verdict
    {store store' : Store} {error : Option Error} (h : store.Heeds store' error) (type : IntType)
    (entry : Position) (digits : Numeral) :
    store.Heeds store'
      (match digits.verdict type entry error with
      | .error error => some error
      | .ok _ => none) := by
  cases error with
  | none => exact h.of_none _
  | some error =>
      cases hsoft : error.fallsThrough with
      | true => exact (h.of_fallsThrough hsoft).of_none _
      | false =>
          rw [Reference.verdict_of_hard hsoft]
          exact h

theorem comes_numeral
    (type : IntType) (negative : Bool) {store : Store} {i : Nat} {view : Option Content}
    {start : Cursor} (hsees : store.Sees i view start) (entry : Cursor) :
    store.Comes i view (Parsed.raise entry)
      (Reference.numeral type negative entry.position view start.position)
      ((numeral type negative entry start).run store) := by
  have hpasses := Cursor.passes_readWhile Numeral.isDigit (Numeral.push type negative) .zero hsees
  simp only [numeral, Action.run_bind, Reference.numeral]
  generalize Content.passage Numeral.isDigit (Numeral.push type negative) .zero view
    start.position = passage at hpasses ⊢
  generalize (start.readWhile .bytes Numeral.isDigit (Numeral.push type negative) .zero).run store
    = result at hpasses ⊢
  cases hpasses with
  | fault hheeds => exact .fault hheeds
  | @stop digits cursor error store' hkeeps hheeds hsees' =>
      have hverdict := heeds_verdict hheeds type entry.position digits
      simp only [Reference.settle]
      cases hvalue : digits.verdict type entry.position error with
      | error error' =>
          rw [hvalue] at hverdict
          exact .error hkeeps hverdict
      | ok value =>
          rw [hvalue] at hverdict
          exact .success hkeeps hverdict hsees'

theorem asciiDigits_refines (type : IntType) : (asciiDigits type).Refines (.digits type) :=
  fun _ _ _ entry hsees => comes_numeral type false hsees entry

/-- The first byte may be read twice, and then the second read meets the same error. -/
theorem signedAsciiDigits_refines (type : IntType) :
    (signedAsciiDigits type).Refines (.signedDigits type) := by
  intro store i view entry hsees
  have hread := Reading.Account.bytes.comes_read hsees
  simp only [signedAsciiDigits, Cursor.byte, Action.run_bind, Reference.signedDigits,
    Reference.enter]
  generalize hout : Reading.Account.bytes.reference view entry.position = outcome at hread ⊢
  generalize (entry.read .bytes).run store = result at hread ⊢
  cases hread with
  | fault hheeds => exact .fault hheeds
  | @success b next store' hkeeps hheeds hsees' =>
      refine .after hkeeps hheeds ?_
      by_cases hminus : b = 0x2D
      · simp only [id, if_pos hminus]
        exact comes_numeral type true hsees' entry
      · simp only [id, if_neg hminus]
        exact comes_numeral type false (hkeeps hsees) entry
  | @error error store' hkeeps hheeds =>
      have hnumeral := comes_numeral type false (hkeeps hsees) entry
      simp only [id]
      cases hsoft : error.fallsThrough with
      | true => exact .after hkeeps (hheeds.of_fallsThrough hsoft) hnumeral
      | false =>
          rw [Reference.numeral_of_read_error hout hsoft] at hnumeral ⊢
          generalize (numeral type false entry entry).run store' = result' at hnumeral ⊢
          cases hnumeral with
          | error hkeeps' hheeds' => exact .error (hkeeps.trans hkeeps') (hheeds.trans hheeds')

end Parser
end StreamParse
