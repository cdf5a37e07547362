import Mathlib.Tactic.Common
import StreamParse.Session

/-!
# Where failures lead back to

When a parser that is made of others fails, one of its parts has decided so, or the combination of
two values was refused, or the input that was taken is no text.  The error is the one that was
raised there.  The failure goes back to where the whole was started, however far its parts have
gone and wherever their own failures would have reading go on.

The one exception is the application of a function: it hands on the failure of its part as it is,
so it goes back to its entry for such parts only that do so themselves.
-/

namespace StreamParse

/-- A parser made of others, by its parts. -/
inductive Combinator : Type → Type 1
  | bind {α β : Type} (p : Parser α) (next : α → Parser β) : Combinator β
  | sequence {α β γ : Type} (p : Parser α) (q : Parser β) (combine : α → β → Except Cause γ) :
    Combinator γ
  | map {α β : Type} (f : α → β) (p : Parser α) : Combinator β
  | or {α : Type} (p q : Parser α) : Combinator α
  | optional {α : Type} (p : Parser α) : Combinator (Option α)
  | many {α : Type} (p : Parser α) : Combinator (Array α)
  | captureText {α : Type} (p : Parser α) : Combinator String
  | captureBytes {α : Type} (p : Parser α) : Combinator (Array UInt8)
  | capturePositions {α : Type} (p : Parser α) : Combinator (Position × Position)

def Combinator.parser : {α : Type} → Combinator α → Parser α
  | _, .bind p next => Parser.bind p next
  | _, .sequence p q combine => Parser.sequence p q combine
  | _, .map f p => Parser.map f p
  | _, .or p q => Parser.or p q
  | _, .optional p => Parser.optional p
  | _, .many p => Parser.many p
  | _, .captureText p => Parser.captureText p
  | _, .captureBytes p => Parser.captureBytes p
  | _, .capturePositions p => Parser.capturePositions p

/-- Turns of a repetition, each of which took input, from a store and a cursor on. -/
inductive Parser.Turns {α : Type} (p : Parser α) (entry : Cursor) (store : Store) :
    Cursor → Store → Prop
  | start : Turns p entry store entry store
  | turn {cursor next : Cursor} {value : α} {store₁ store₂ : Store} :
    Turns p entry store cursor store₁ →
      (p cursor).run store₁ = (.ok (.ok (value, next)), store₂) →
        cursor.position.offset < next.position.offset → Turns p entry store next store₂

/-- What decides that a combinator fails, started from a store and at an entry: the error that is
raised, and the store at that moment.  Where the part that raised it would have reading go on is
of no account. -/
inductive Combinator.Decides (entry : Cursor) (store : Store) :
    {α : Type} → Combinator α → Error → Store → Prop
  | bindFirst {α β : Type} {p : Parser α} {next : α → Parser β} {error : Error} {stop : Cursor}
      {store' : Store} :
    (p entry).run store = (.ok (.error ⟨error, stop⟩), store') →
      Decides entry store (.bind p next) error store'
  | bindNext {α β : Type} {p : Parser α} {next : α → Parser β} {value : α} {cursor : Cursor}
      {error : Error} {stop : Cursor} {store₁ store' : Store} :
    (p entry).run store = (.ok (.ok (value, cursor)), store₁) →
      (next value cursor).run store₁ = (.ok (.error ⟨error, stop⟩), store') →
        Decides entry store (.bind p next) error store'
  | sequenceFirst {α β γ : Type} {p : Parser α} {q : Parser β} {combine : α → β → Except Cause γ}
      {error : Error} {stop : Cursor} {store' : Store} :
    (p entry).run store = (.ok (.error ⟨error, stop⟩), store') →
      Decides entry store (.sequence p q combine) error store'
  | sequenceSecond {α β γ : Type} {p : Parser α} {q : Parser β}
      {combine : α → β → Except Cause γ} {a : α} {middle : Cursor} {error : Error} {stop : Cursor}
      {store₁ store' : Store} :
    (p entry).run store = (.ok (.ok (a, middle)), store₁) →
      (q middle).run store₁ = (.ok (.error ⟨error, stop⟩), store') →
        Decides entry store (.sequence p q combine) error store'
  | sequenceRefused {α β γ : Type} {p : Parser α} {q : Parser β}
      {combine : α → β → Except Cause γ} {a : α} {b : β} {middle cursor : Cursor} {cause : Cause}
      {store₁ store' : Store} :
    (p entry).run store = (.ok (.ok (a, middle)), store₁) →
      (q middle).run store₁ = (.ok (.ok (b, cursor)), store') → combine a b = .error cause →
        Decides entry store (.sequence p q combine) (.positioned entry.position cause) store'
  | map {α β : Type} {f : α → β} {p : Parser α} {error : Error} {stop : Cursor}
      {store' : Store} :
    (p entry).run store = (.ok (.error ⟨error, stop⟩), store') →
      Decides entry store (.map f p) error store'
  | orFirst {α : Type} {p q : Parser α} {error : Error} {stop : Cursor} {store' : Store} :
    (p entry).run store = (.ok (.error ⟨error, stop⟩), store') → error.fallsThrough = false →
      Decides entry store (.or p q) error store'
  | orSecond {α : Type} {p q : Parser α} {failure : Failure} {error : Error} {stop : Cursor}
      {store₁ store' : Store} :
    (p entry).run store = (.ok (.error failure), store₁) → failure.error.fallsThrough = true →
      (q entry).run store₁ = (.ok (.error ⟨error, stop⟩), store') →
        Decides entry store (.or p q) error store'
  | optional {α : Type} {p : Parser α} {error : Error} {stop : Cursor} {store' : Store} :
    (p entry).run store = (.ok (.error ⟨error, stop⟩), store') → error.fallsThrough = false →
      Decides entry store (.optional p) error store'
  | many {α : Type} {p : Parser α} {cursor : Cursor} {error : Error} {stop : Cursor}
      {store₁ store' : Store} :
    p.Turns entry store cursor store₁ →
      (p cursor).run store₁ = (.ok (.error ⟨error, stop⟩), store') →
        error.fallsThrough = false → Decides entry store (.many p) error store'
  | captureTextPart {α : Type} {p : Parser α} {error : Error} {stop : Cursor} {store' : Store} :
    (p entry).run store = (.ok (.error ⟨error, stop⟩), store') →
      Decides entry store (.captureText p) error store'
  | captureTextSpan {α : Type} {p : Parser α} {value : α} {cursor : Cursor} {error : Error}
      {store₁ store' : Store} :
    (p entry).run store = (.ok (.ok (value, cursor)), store₁) →
      (entry.textUntil cursor).run store₁ = (.ok (.error error), store') →
        Decides entry store (.captureText p) error store'
  | captureBytes {α : Type} {p : Parser α} {error : Error} {stop : Cursor} {store' : Store} :
    (p entry).run store = (.ok (.error ⟨error, stop⟩), store') →
      Decides entry store (.captureBytes p) error store'
  | capturePositions {α : Type} {p : Parser α} {error : Error} {stop : Cursor}
      {store' : Store} :
    (p entry).run store = (.ok (.error ⟨error, stop⟩), store') →
      Decides entry store (.capturePositions p) error store'

namespace Parser

variable {α β γ : Type} {p : Parser α} {entry : Cursor} {store store' : Store} {failure : Failure}

theorem bind_failed
    {next : α → Parser β} (h : (bind p next entry).run store = (.ok (.error failure), store')) :
    (Combinator.bind p next).Decides entry store failure.error store' ∧ failure.cursor = entry := by
  obtain ⟨parsed, store₁, hp, h⟩ := Action.exists_of_run_bind h
  rcases parsed with first | ⟨value, cursor⟩
  · cases h
    exact ⟨.bindFirst hp, rfl⟩
  · obtain ⟨parsed, store₂, hnext, h⟩ := Action.exists_of_run_bind h
    rcases parsed with second | success
    · cases h
      exact ⟨.bindNext hp hnext, rfl⟩
    · cases h

theorem sequence_failed
    {q : Parser β} {combine : α → β → Except Cause γ}
    (h : (sequence p q combine entry).run store = (.ok (.error failure), store')) :
    (Combinator.sequence p q combine).Decides entry store failure.error store' ∧
      failure.cursor = entry := by
  obtain ⟨parsed, store₁, hp, h⟩ := Action.exists_of_run_bind h
  rcases parsed with first | ⟨a, middle⟩
  · cases h
    exact ⟨.sequenceFirst hp, rfl⟩
  · obtain ⟨parsed, store₂, hq, h⟩ := Action.exists_of_run_bind h
    rcases parsed with second | ⟨b, cursor⟩
    · cases h
      exact ⟨.sequenceSecond hp hq, rfl⟩
    · dsimp only at h
      split at h
      · next cause hcombine =>
        cases h
        exact ⟨.sequenceRefused hp hq hcombine, rfl⟩
      · cases h

/-- What is applied to a value has no part in a failure. -/
theorem map_failed
    {f : α → β} (h : (map f p entry).run store = (.ok (.error failure), store')) :
    (p entry).run store = (.ok (.error failure), store') := by
  obtain ⟨parsed, store₁, hp, h⟩ := Action.exists_of_run_bind h
  rcases parsed with first | ⟨value, cursor⟩
  · cases h
    exact hp
  · cases h

theorem or_failed
    {q : Parser α} (h : (or p q entry).run store = (.ok (.error failure), store')) :
    (Combinator.or p q).Decides entry store failure.error store' ∧ failure.cursor = entry := by
  obtain ⟨parsed, store₁, hp, h⟩ := Action.exists_of_run_bind h
  rcases parsed with first | success
  · dsimp only at h
    split at h
    · next hfalls =>
      obtain ⟨parsed, store₂, hq, h⟩ := Action.exists_of_run_bind h
      rcases parsed with second | success
      · cases h
        exact ⟨.orSecond hp hfalls hq, rfl⟩
      · cases h
    · next hhard =>
      cases h
      exact ⟨.orFirst hp (Bool.of_not_eq_true hhard), rfl⟩
  · cases h

theorem optional_failed (h : (optional p entry).run store = (.ok (.error failure), store')) :
    (Combinator.optional p).Decides entry store failure.error store' ∧ failure.cursor = entry := by
  obtain ⟨parsed, store₁, hp, h⟩ := Action.exists_of_run_bind h
  rcases parsed with first | ⟨value, cursor⟩
  · dsimp only at h
    split at h
    · cases h
    · next hhard =>
      cases h
      exact ⟨.optional hp (Bool.of_not_eq_true hhard), rfl⟩
  · cases h

/-- The turns that were made lead to the cursor where the deciding turn began. -/
theorem collect_failed
    {values : Array α} {cursor : Cursor} {store₁ : Store}
    (hturns : p.Turns entry store cursor store₁)
    (h : (collect p entry values cursor).run store₁ = (.ok (.error failure), store')) :
    (Combinator.many p).Decides entry store failure.error store' ∧ failure.cursor = entry := by
  induction hleft : offsetLimit - cursor.position.offset using Nat.strongRecOn
    generalizing values cursor store₁ with
  | ind left ih =>
      rw [collect] at h
      obtain ⟨parsed, store₂, hp, h⟩ := Action.exists_of_run_bind h
      rcases parsed with last | ⟨value, next⟩
      · dsimp only at h
        split at h
        · cases h
        · next hhard =>
          cases h
          exact ⟨.many hturns hp (Bool.of_not_eq_true hhard), rfl⟩
      · dsimp only at h
        split at h
        · cases h
        · next honward =>
          split at h
          · cases h
          · exact ih (offsetLimit - next.position.offset) (by omega)
              (hturns.turn hp (Nat.lt_of_not_le honward)) h rfl

theorem captureText_failed
    (h : (captureText p entry).run store = (.ok (.error failure), store')) :
    (Combinator.captureText p).Decides entry store failure.error store' ∧
      failure.cursor = entry := by
  obtain ⟨parsed, store₁, hp, h⟩ := Action.exists_of_run_bind h
  rcases parsed with first | ⟨value, cursor⟩
  · cases h
    exact ⟨.captureTextPart hp, rfl⟩
  · obtain ⟨text, store₂, htext, h⟩ := Action.exists_of_run_bind h
    rcases text with error | text
    · cases h
      exact ⟨.captureTextSpan hp htext, rfl⟩
    · cases h

theorem captureBytes_failed
    (h : (captureBytes p entry).run store = (.ok (.error failure), store')) :
    (Combinator.captureBytes p).Decides entry store failure.error store' ∧
      failure.cursor = entry := by
  obtain ⟨parsed, store₁, hp, h⟩ := Action.exists_of_run_bind h
  rcases parsed with first | ⟨value, cursor⟩
  · cases h
    exact ⟨.captureBytes hp, rfl⟩
  · obtain ⟨bytes, store₂, -, h⟩ := Action.exists_of_run_bind h
    cases h

theorem capturePositions_failed
    (h : (capturePositions p entry).run store = (.ok (.error failure), store')) :
    (Combinator.capturePositions p).Decides entry store failure.error store' ∧
      failure.cursor = entry := by
  obtain ⟨parsed, store₁, hp, h⟩ := Action.exists_of_run_bind h
  rcases parsed with first | ⟨value, cursor⟩
  · cases h
    exact ⟨.capturePositions hp, rfl⟩
  · cases h

end Parser

namespace Combinator

variable {α : Type} {entry : Cursor} {store store' : Store} {failure : Failure}

/-- Failures are rewound.  Whatever its parts are, a combinator that fails does so with the error
that decided it and goes back to its own entry; only the application of a function goes on from
where its part would have reading go on. -/
theorem failure_rewound
    (c : Combinator α) (h : (c.parser entry).run store = (.ok (.error failure), store')) :
    c.Decides entry store failure.error store' ∧
      (failure.cursor = entry ∨ ∃ (β : Type) (f : β → α) (p : Parser β), c = .map f p ∧
        (p entry).run store = (.ok (.error failure), store')) := by
  cases c with
  | bind p next => exact (Parser.bind_failed h).imp_right Or.inl
  | sequence p q combine => exact (Parser.sequence_failed h).imp_right Or.inl
  | map f p =>
      have hp := Parser.map_failed h
      exact ⟨.map hp, Or.inr ⟨_, f, p, rfl, hp⟩⟩
  | or p q => exact (Parser.or_failed h).imp_right Or.inl
  | optional p => exact (Parser.optional_failed h).imp_right Or.inl
  | many p => exact (Parser.collect_failed .start h).imp_right Or.inl
  | captureText p => exact (Parser.captureText_failed h).imp_right Or.inl
  | captureBytes p => exact (Parser.captureBytes_failed h).imp_right Or.inl
  | capturePositions p => exact (Parser.capturePositions_failed h).imp_right Or.inl

/-- Whichever of two parts has gone further before it failed, the failure is that of the second
one, and it goes back to the entry of both. -/
theorem failure_rewound_of_or :
    let store := (Session.start ⟨[]⟩ [("s", .complete [0x61, 0x62])]).store
    let entry : Cursor := ⟨some ⟨0, ⟨0, 0⟩⟩, .start⟩
    let c : Combinator Unit := .or (.failAfter 1 .noMatch) (.failAfter 2 .endOfInput)
    let result := (c.parser entry).run store
    result.1 = .ok (.error ⟨.endOfInput, entry⟩) ∧
      c.Decides entry store .endOfInput result.2 := by
  intro store entry c result
  have hfailed : result.1 = .ok (.error ⟨.endOfInput, entry⟩) := by decide +kernel
  exact ⟨hfailed, (failure_rewound c (Prod.ext hfailed rfl)).1⟩

/-- A function is applied to a part that fails after one byte: the failure stays there. -/
theorem map_failure_not_rewound :
    ¬ ∀ (c : Combinator Unit) (entry : Cursor) (store : Store) (failure : Failure),
      ((c.parser entry).run store).1 = .ok (.error failure) → failure.cursor = entry := by
  intro hrewound
  let store := (Session.start ⟨[]⟩ [("s", .complete [0x61, 0x62])]).store
  let entry : Cursor := ⟨some ⟨0, ⟨0, 0⟩⟩, .start⟩
  let stop : Cursor := ⟨some ⟨0, ⟨0, 1⟩⟩, ⟨1, 1, 2⟩⟩
  have hfailed : (((map id (.failAfter 1 .noMatch) : Combinator Unit).parser entry).run store).1 =
      .ok (.error ⟨.noMatch, stop⟩) := by
    decide +kernel
  have hsame : stop = entry := hrewound _ entry store _ hfailed
  exact absurd hsame (by decide)

end Combinator
end StreamParse
