import StreamParse.Proofs.Chain.Layout

/-!
# A source that claims too much is dropped

A pull ends in a fault where its source claims more bytes than there was room for.  By then the
chain may have grown within the same read, by chunks that were passed over or that hold the
beginning of a sequence.  These stay.  The source was taken from the chain for the pull and is not
put back, so the chain just ends after the bytes that it holds.
-/

namespace StreamParse

namespace Chain

/-- Without its source. -/
def close (c : Chain) : Chain := { c with source := none }

/-- A chain whose source claimed too much ends after the bytes that are there. -/
theorem content_close
    {c : Chain} (hsound : c.Sound) {source : Source} (hsource : c.source = some source)
    {fault : Fault} (hfill : (source.fill c.config 0).outcome = .error fault) :
    c.close.Sound ∧ c.close.content = ⟨c.bytes, .ended⟩ := by
  have hcut := cut_drop hsound hsource hfill
  obtain ⟨-, hrest⟩ := Source.content_of_fill_error hfill
  refine ⟨hcut.sound, ?_⟩
  calc c.close.content = c.content.settled := hcut.content
    _ = (Content.prepend c.bytes ⟨[], .overclaimed source.conduct⟩).settled := by
      rw [content, rest_of_source hsound hsource, hrest, bytes]
    _ = ⟨c.bytes, .ended⟩ := by simp [Content.prepend, Content.settled]

end Chain

namespace Feed

/-- A pull was begun, and the source claimed too much: it is dropped, and the journal tells what it
was asked and what it answered. -/
inductive Drops (feed : Feed) (conduct : Conduct) : Feed → Prop
  | pull {source : Source} :
    feed.chain.source = some source →
      (source.fill feed.chain.config 0).outcome = .error (.overclaimed conduct) →
        Drops feed conduct
          ⟨feed.chain.close, feed.journal ++ (source.fill feed.chain.config 0).events⟩

/-- Where the action ends in the fault of a source, the last thing that happened is that this source
was dropped; before that, chunks were asked for. -/
def Yields {α : Type} (feed : Feed) (result : Except Fault α × Feed) : Prop :=
  ∀ conduct, result.1 = .error (.overclaimed conduct) →
    ∃ middle, feed.Asks middle ∧ middle.Drops conduct result.2

variable {α β : Type} {feed middle : Feed}

theorem Yields.ok (feed' : Feed) (value : α) : feed.Yields ((.ok value : Except Fault α), feed') :=
  fun _ h => by cases h

theorem Yields.inconsistent (feed' : Feed) (inconsistency : Inconsistency) :
    feed.Yields ((.error (.inconsistent inconsistency) : Except Fault α), feed') :=
  fun _ h => by cases h

theorem Yields.error {fault : Fault} {feed' : Feed}
    (h : feed.Yields ((.error fault : Except Fault α), feed')) :
    feed.Yields ((.error fault : Except Fault β), feed') :=
  fun conduct heq => h conduct (by cases heq; rfl)

theorem Yields.after {result : Except Fault α × Feed} (hasks : feed.Asks middle)
    (h : middle.Yields result) : feed.Yields result := by
  intro conduct hfault
  obtain ⟨last, hlast, hdrops⟩ := h conduct hfault
  exact ⟨last, hasks.trans hlast, hdrops⟩

theorem yields_of_next
    {k : Nat} {result : Except Fault (Option Chunk) × Feed} (h : (next k).run feed = result) :
    feed.Yields result := by
  cases asked_of_next h with
  | present => apply Yields.ok
  | beyond => apply Yields.inconsistent
  | last => apply Yields.ok
  | pulled => apply Yields.ok
  | dropped _ hsource hfill =>
      rintro conduct ⟨⟩
      exact ⟨feed, .refl, .pull hsource hfill⟩

theorem yields_following (k : Nat) (feed : Feed) : feed.Yields (following k feed) := by
  fun_induction following k feed with
  | case1 k feed fault feed' hnext => exact (yields_of_next hnext).error
  | case2 => apply Yields.ok
  | case3 k feed chunk feed' hnext hlt hempty ih => exact .after (asks_of_next hnext) ih
  | case4 => apply Yields.ok

theorem yields_byte (place : Place) (feed : Feed) : feed.Yields ((byte place).run feed) := by
  have hfollowing := yields_following place.chunk feed
  simp only [byte]
  split
  · apply Yields.inconsistent
  · split
    · apply Yields.ok
    · split
      · apply Yields.inconsistent
      · rcases hrun : following place.chunk feed with ⟨fault | halt | ⟨k, chunk⟩, feed'⟩
        · rw [hrun] at hfollowing
          exact hfollowing.error
        · apply Yields.ok
        · dsimp only
          split
          · apply Yields.inconsistent
          · apply Yields.ok

theorem yields_sequenceFrom
    (k : Nat) (chunk : Chunk) (start earlier : Nat) (window : List UInt8) (feed : Feed) :
    feed.Yields (sequenceFrom k chunk start earlier window feed) := by
  fun_induction sequenceFrom k chunk start earlier window feed with
  | case1 => apply Yields.ok
  | case2 => apply Yields.ok
  | case3 => apply Yields.inconsistent
  | case4 => apply Yields.inconsistent
  | case5 k chunk start earlier window feed hopen hshort fault feed' hnext =>
      exact (yields_of_next hnext).error
  | case6 => apply Yields.ok
  | case7 k chunk start earlier window feed hopen hshort chunk' feed' hnext hlt more ih =>
      exact .after (asks_of_next hnext) ih

theorem yields_rune (place : Place) (feed : Feed) : feed.Yields ((rune place).run feed) := by
  simp only [rune]
  split
  · apply Yields.inconsistent
  · split
    · apply Yields.inconsistent
    · apply yields_sequenceFrom

end Feed
end StreamParse
