import StreamParse.Proofs.Chain.Invariant

/-!
# Chains only grow

All that a read does to a chain it does by asking for chunks.  One such request either finds the
chunk there, or appends one, or changes nothing but the source; so a chain only grows, and once it
holds no source it stays as it is.

This makes going back free.  A read that gave a result has asked for every chunk that it needs.
Made again over a chain that has grown since, it finds these chunks there, gives the same result
and leaves the chain and the journal alone.  None of this depends on the invariant of chains: it
holds from every place, however it was come by.
-/

namespace StreamParse

namespace Chain

/-- A later form of a chain, whatever was asked of its source meanwhile. -/
structure Grown (c c' : Chain) : Prop where
  chunks : c.chunks.toList <+: c'.chunks.toList
  config : c'.config = c.config
  closed : c.source = none → c' = c

theorem Grown.refl (c : Chain) : c.Grown c :=
  ⟨List.prefix_refl _, rfl, fun _ => rfl⟩

theorem Grown.trans {c c' c'' : Chain} (h : c.Grown c') (h' : c'.Grown c'') : c.Grown c'' := by
  refine ⟨h.chunks.trans h'.chunks, h'.config.trans h.config, ?_⟩
  intro hsource
  obtain rfl := h.closed hsource
  exact h'.closed hsource

theorem Grown.getElem? {c c' : Chain} (h : c.Grown c') {k : Nat} {chunk : Chunk}
    (hchunk : c.chunks[k]? = some chunk) : c'.chunks[k]? = some chunk :=
  getElem?_of_isPrefix h.chunks hchunk

end Chain

namespace Feed

open Chain

/-! ## One request -/

/-- All that asking for the chunk after chunk `k` can come to: the chunk is there already, there is
no chunk `k`, chunk `k` is the last one for good, the source is dropped with a fault, or a chunk is
pulled. -/
inductive Asked (feed : Feed) (k : Nat) : Except Fault (Option Chunk) × Feed → Prop
  | present {chunk : Chunk} :
    feed.chain.chunks[k + 1]? = some chunk → Asked feed k (.ok (some chunk), feed)
  | beyond :
    feed.chain.chunks.size ≤ k → Asked feed k (.error (.inconsistent .chunkMissing), feed)
  | last :
    k + 1 = feed.chain.chunks.size → feed.chain.source = none → Asked feed k (.ok none, feed)
  | dropped {source : Source} {fault : Fault} :
    k + 1 = feed.chain.chunks.size → feed.chain.source = some source →
      (source.fill feed.chain.config 0).outcome = .error fault →
      Asked feed k (.error fault, ⟨{ feed.chain with source := none },
        feed.journal ++ (source.fill feed.chain.config 0).events⟩)
  | pulled {source : Source} {chunk : Chunk} {rest : Option Source} :
    k + 1 = feed.chain.chunks.size → feed.chain.source = some source →
      (source.fill feed.chain.config 0).outcome = .ok (chunk, rest) →
      Asked feed k (.ok (some chunk), ⟨feed.chain.push chunk rest,
        feed.journal ++ (source.fill feed.chain.config 0).events⟩)

theorem asked_next (feed : Feed) (k : Nat) : feed.Asked k ((next k).run feed) := by
  obtain ⟨chain, journal⟩ := feed
  simp only [next]
  cases hnext : chain.chunks[k + 1]? with
  | some chunk => exact .present hnext
  | none =>
      by_cases hbeyond : chain.chunks.size ≤ k
      · simp only [if_pos hbeyond]
        exact .beyond hbeyond
      · have hlast : k + 1 = chain.chunks.size := by
          have := Array.getElem?_eq_none_iff.1 hnext
          omega
        simp only [if_neg hbeyond]
        cases hsource : chain.source with
        | none => exact .last hlast hsource
        | some source =>
            cases hfill : (source.fill chain.config 0).outcome with
            | error fault =>
                simp only [hfill]
                exact .dropped hlast hsource hfill
            | ok filled =>
                simp only [hfill]
                exact .pulled hlast hsource hfill

theorem asked_of_next
    {feed : Feed} {k : Nat} {result : Except Fault (Option Chunk) × Feed}
    (h : (next k).run feed = result) : feed.Asked k result := by
  rw [← h]
  exact asked_next feed k

theorem run_next_of_getElem?
    {feed : Feed} {k : Nat} {chunk : Chunk} (h : feed.chain.chunks[k + 1]? = some chunk) :
    (next k).run feed = (.ok (some chunk), feed) := by
  simp only [next, h]

theorem run_next_of_last
    {feed : Feed} {k : Nat} (hlast : k + 1 = feed.chain.chunks.size)
    (hsource : feed.chain.source = none) : (next k).run feed = (.ok none, feed) := by
  have hnone : feed.chain.chunks[k + 1]? = none := Array.getElem?_eq_none_iff.2 (by omega)
  simp only [next, hnone, hsource]
  rw [if_neg (by omega)]

/-! ## Requests one after the other -/

/-- Requests for chunks lead from one feed to the other. -/
inductive Asks (feed : Feed) : Feed → Prop
  | refl : Asks feed feed
  | next {feed' : Feed} (k : Nat) : Asks feed feed' → Asks feed ((next k).run feed').2

variable {feed feed' feed'' : Feed}

theorem Asks.trans (h : feed.Asks feed') (h' : feed'.Asks feed'') : feed.Asks feed'' := by
  induction h' with
  | refl => exact h
  | next k _ ih => exact .next k ih

theorem asks_of_next
    {k : Nat} {outcome : Except Fault (Option Chunk)}
    (h : (Feed.next k).run feed = (outcome, feed')) : feed.Asks feed' := by
  have hasks : feed.Asks ((Feed.next k).run feed).2 := .next k .refl
  rw [h] at hasks
  exact hasks

theorem asks_following (k : Nat) (feed : Feed) : feed.Asks (following k feed).2 := by
  fun_induction following k feed with
  | case1 k feed fault feed₁ hnext => exact asks_of_next hnext
  | case2 k feed feed₁ hnext => exact asks_of_next hnext
  | case3 k feed chunk feed₁ hnext hlt hempty ih => exact (asks_of_next hnext).trans ih
  | case4 k feed chunk feed₁ hnext hlt hempty => exact asks_of_next hnext

theorem asks_byte (place : Place) (feed : Feed) : feed.Asks ((byte place).run feed).2 := by
  have hfollowing := asks_following place.chunk feed
  simp only [byte]
  split
  · exact .refl
  · split
    · exact .refl
    · split
      · exact .refl
      · rcases hrun : following place.chunk feed with ⟨fault | halt | ⟨k, chunk⟩, feed₁⟩
        · simpa [hrun] using hfollowing
        · simpa [hrun] using hfollowing
        · rw [hrun] at hfollowing
          dsimp only
          split <;> exact hfollowing

theorem asks_sequenceFrom
    (k : Nat) (chunk : Chunk) (start earlier : Nat) (window : List UInt8) (feed : Feed) :
    feed.Asks (sequenceFrom k chunk start earlier window feed).2 := by
  fun_induction sequenceFrom k chunk start earlier window feed with
  | case1 => exact .refl
  | case2 => exact .refl
  | case3 => exact .refl
  | case4 => exact .refl
  | case5 k chunk start earlier window feed hopen hshort fault feed₁ hnext =>
      exact asks_of_next hnext
  | case6 k chunk start earlier window feed hopen hshort feed₁ hnext otherwise =>
      exact asks_of_next hnext
  | case7 k chunk start earlier window feed hopen hshort chunk₁ feed₁ hnext hlt more ih =>
      exact (asks_of_next hnext).trans ih

theorem asks_rune (place : Place) (feed : Feed) : feed.Asks ((rune place).run feed).2 := by
  simp only [rune]
  split
  · exact .refl
  · split
    · exact .refl
    · exact asks_sequenceFrom _ _ _ _ _ feed

theorem Asks.grown (h : feed.Asks feed') : feed.chain.Grown feed'.chain := by
  induction h with
  | refl => exact Grown.refl _
  | @next feed₁ k _ ih =>
      refine ih.trans ?_
      have hasked := asked_next feed₁ k
      generalize (Feed.next k).run feed₁ = result at hasked ⊢
      cases hasked with
      | present => exact Grown.refl _
      | beyond => exact Grown.refl _
      | last => exact Grown.refl _
      | dropped _ hsource _ => exact ⟨List.prefix_refl _, rfl, by simp [hsource]⟩
      | pulled _ hsource _ => exact ⟨by simp [push], rfl, by simp [hsource]⟩

/-! ## Reads made again -/

/-- Made again over a chain that has grown since, the action gives the same and does nothing. -/
def Replays {α : Type} (x : Action Feed α) : Prop :=
  ∀ ⦃feed : Feed⦄ ⦃value : α⦄ ⦃feed' : Feed⦄, x.run feed = (.ok value, feed') →
    ∀ ⦃later : Feed⦄, feed'.chain.Grown later.chain → x.run later = (.ok value, later)

theorem replays_next (k : Nat) : Replays (next k) := by
  intro feed value feed' hnext later hgrown
  cases asked_of_next hnext with
  | present hchunk => exact run_next_of_getElem? (hgrown.getElem? hchunk)
  | last hlast hsource =>
      have hsame : later.chain = feed.chain := hgrown.closed hsource
      apply run_next_of_last
      · rw [hsame, hlast]
      · rw [hsame, hsource]
  | pulled hlast hsource hfill =>
      apply run_next_of_getElem?
      apply hgrown.getElem?
      simp [push, hlast]

/-- Where a chain has ended, it ends in all its later forms, with the same chunks. -/
theorem eq_of_next_eq_none
    {k : Nat} (h : (next k).run feed = (.ok none, feed')) {later : Feed}
    (hgrown : feed'.chain.Grown later.chain) : later.chain = feed'.chain := by
  cases asked_of_next h with
  | last _ hsource => exact hgrown.closed hsource

theorem following_eq (k : Nat) (feed : Feed) :
    following k feed =
      match (next k).run feed with
      | (.error fault, feed) => (.error fault, feed)
      | (.ok none, feed) => (.ok (.error (feed.chain.haltAfter k .ended)), feed)
      | (.ok (some chunk), feed) =>
        if chunk.bytes.isEmpty then following (k + 1) feed
        else (.ok (.ok (k + 1, chunk)), feed) := by
  rw [following]
  split <;> simp only [*]

theorem replays_following
    {k : Nat} {found : Except Halt (Nat × Chunk)}
    (h : following k feed = (.ok found, feed')) {later : Feed}
    (hgrown : feed'.chain.Grown later.chain) : following k later = (.ok found, later) := by
  fun_induction following k feed with
  | case1 => cases h
  | case2 k feed feed₁ hnext =>
      cases h
      have hsame := eq_of_next_eq_none hnext hgrown
      rw [following_eq, replays_next k hnext hgrown]
      simp only [hsame]
  | case3 k feed chunk feed₁ hnext hlt hempty ih =>
      have hlater : feed₁.chain.Grown later.chain := by
        have hasks := asks_following (k + 1) feed₁
        rw [h] at hasks
        exact hasks.grown.trans hgrown
      rw [following_eq, replays_next k hnext hlater]
      simp only [if_pos hempty]
      exact ih h
  | case4 k feed chunk feed₁ hnext hlt hempty =>
      cases h
      rw [following_eq, replays_next k hnext hgrown]
      simp only [if_neg hempty]

theorem replays_byte (place : Place) : Replays (byte place) := by
  intro feed value feed' h later hgrown
  have hasks := asks_byte place feed
  rw [h] at hasks
  simp only [byte] at h ⊢
  cases hchunk : feed.chain.chunks[place.chunk]? with
  | none => simp [hchunk] at h
  | some chunk =>
      have hchunk' := (hasks.grown.trans hgrown).getElem? hchunk
      simp only [hchunk, hchunk'] at h ⊢
      split at h
      · next hindex =>
        cases h
        rw [dif_pos hindex]
      · next hindex =>
        rw [dif_neg hindex]
        split at h
        · simp at h
        · next hbeyond =>
          rw [if_neg hbeyond]
          rcases hrun : following place.chunk feed with ⟨fault | halt | ⟨k, chunk₁⟩, feed₁⟩
          · simp [hrun] at h
          · simp only [hrun] at h
            cases h
            simp only [replays_following hrun hgrown]
          · simp only [hrun] at h
            cases hfirst : chunk₁.bytes[0]? with
            | none => simp [hfirst] at h
            | some b =>
                simp only [hfirst] at h
                cases h
                simp only [replays_following hrun hgrown, hfirst]

theorem sequenceFrom_eq
    (k : Nat) (chunk : Chunk) (start earlier : Nat) (window : List UInt8) (feed : Feed) :
    sequenceFrom k chunk start earlier window feed =
      match Utf8.classify window with
      | .malformed => (.ok (.error .malformed), feed)
      | .scalar c =>
        let stop := start + (c.utf8Size - earlier)
        if earlier < c.utf8Size ∧ stop ≤ chunk.bytes.size then (.ok (.ok (c, ⟨k, stop⟩)), feed)
        else (.error (.inconsistent .sequenceMisplaced), feed)
      | .incomplete =>
        if Utf8.maxWidth ≤ window.length then (.error (.inconsistent .windowFull), feed)
        else
          match (next k).run feed with
          | (.error fault, feed) => (.error fault, feed)
          | (.ok none, feed) =>
            let otherwise := if window.isEmpty then .ended else .malformed
            (.ok (.error (feed.chain.haltAfter k otherwise)), feed)
          | (.ok (some chunk), feed) =>
            let more := (chunk.bytes.extract 0 (Utf8.maxWidth - window.length)).toList
            sequenceFrom (k + 1) chunk 0 window.length (window ++ more) feed := by
  rw [sequenceFrom]
  cases Utf8.classify window with
  | malformed => rfl
  | scalar c => rfl
  | incomplete =>
      dsimp only
      split
      · rfl
      · split <;> simp only [*]

theorem replays_sequenceFrom
    {k start earlier : Nat} {chunk : Chunk} {window : List UInt8}
    {found : Except Halt (Char × Place)}
    (h : sequenceFrom k chunk start earlier window feed = (.ok found, feed')) {later : Feed}
    (hgrown : feed'.chain.Grown later.chain) :
    sequenceFrom k chunk start earlier window later = (.ok found, later) := by
  fun_induction sequenceFrom k chunk start earlier window feed with
  | case1 k chunk start earlier window feed hmalformed =>
      cases h
      simp only [sequenceFrom_eq, hmalformed]
  | case2 k chunk start earlier window feed c hscalar stop hstop =>
      cases h
      simp only [sequenceFrom_eq, hscalar]
      rw [if_pos hstop]
  | case3 => cases h
  | case4 => cases h
  | case5 => cases h
  | case6 k chunk start earlier window feed hopen hshort feed₁ hnext otherwise =>
      cases h
      have hsame := eq_of_next_eq_none hnext hgrown
      simp only [sequenceFrom_eq, hopen, if_neg hshort, replays_next k hnext hgrown, hsame]
      rfl
  | case7 k chunk start earlier window feed hopen hshort chunk₁ feed₁ hnext hlt more ih =>
      have hlater : feed₁.chain.Grown later.chain := by
        have hasks := asks_sequenceFrom (k + 1) chunk₁ 0 window.length (window ++ more) feed₁
        rw [h] at hasks
        exact hasks.grown.trans hgrown
      rw [sequenceFrom_eq]
      simp only [hopen, if_neg hshort, replays_next k hnext hlater]
      exact ih h

theorem replays_rune (place : Place) : Replays (rune place) := by
  intro feed value feed' h later hgrown
  have hasks := asks_rune place feed
  rw [h] at hasks
  simp only [rune] at h ⊢
  cases hchunk : feed.chain.chunks[place.chunk]? with
  | none => simp [hchunk] at h
  | some chunk =>
      have hchunk' := (hasks.grown.trans hgrown).getElem? hchunk
      simp only [hchunk, hchunk'] at h ⊢
      split at h
      · simp at h
      · next hindex =>
        rw [if_neg hindex]
        exact replays_sequenceFrom h hgrown

end Feed
end StreamParse
