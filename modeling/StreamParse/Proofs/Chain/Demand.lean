import StreamParse.Proofs.Chain.Drain
import StreamParse.Proofs.Chain.Layout
import StreamParse.Store

/-!
# Chunks are pulled on demand

A read pulls a chunk exactly where the bytes that are there leave its unit open and the source may
have more.  It goes on with this, chunk by chunk, until the unit is decided or the source is gone.
How far behind the end of the chain it begins makes no difference: the chunks in between are not
empty, so they are passed through without asking for anything.
-/

namespace StreamParse

/-- Bytes that leave open what a read by these units gives: a byte is open as long as there is none,
and a scalar value as long as there is only a proper beginning of an encoding.  Having no bytes is
such a beginning too. -/
def Grain.Undecided : Grain → List UInt8 → Prop
  | .byte, bytes => bytes = []
  | .rune, bytes => ∃ c, bytes <+: String.utf8EncodeChar c ∧ bytes ≠ String.utf8EncodeChar c

theorem Grain.undecided_rune_iff (bytes : List UInt8) :
    rune.Undecided bytes ↔ Utf8.classify bytes = .incomplete :=
  Utf8.classify_eq_incomplete_iff.symm

namespace Chain

/-- The bytes of the chunks from number `k` on. -/
def bytesFrom (c : Chain) (k : Nat) : List UInt8 :=
  (c.chunks.toList.drop k).flatMap (·.bytes.toList)

/-- The bytes that are there from a place on, up to the end of the last chunk. -/
def ahead (c : Chain) (place : Place) : List UInt8 :=
  (c.bytesFrom place.chunk).drop place.index

/-- A read from a place has to pull a chunk: what is there leaves its unit open, and the source may
have more. -/
def Demands (c : Chain) (grain : Grain) (place : Place) : Prop :=
  grain.Undecided (c.ahead place) ∧ c.source ≠ none

variable {c : Chain} {place : Place} {k offset : Nat} {chunk : Chunk}

theorem inputFrom_eq_append (c : Chain) (k : Nat) :
    c.inputFrom k = c.bytesFrom k ++ c.rest.bytes := rfl

theorem bytesFrom_of_getElem? (h : c.chunks[k]? = some chunk) :
    c.bytesFrom k = chunk.bytes.toList ++ c.bytesFrom (k + 1) := by
  have hinput := inputFrom_of_getElem? h
  rw [inputFrom_eq_append, inputFrom_eq_append, ← List.append_assoc] at hinput
  exact List.append_cancel_right hinput

theorem bytesFrom_size (c : Chain) : c.bytesFrom c.chunks.size = [] := by
  rw [bytesFrom, ← Array.length_toList, List.drop_length]
  rfl

theorem ahead_of_getElem? (h : c.chunks[place.chunk]? = some chunk)
    (hindex : place.index ≤ chunk.bytes.size) :
    c.ahead place = chunk.bytes.toList.drop place.index ++ c.bytesFrom (place.chunk + 1) := by
  rw [ahead, bytesFrom_of_getElem? h, List.drop_append_of_le_length (by simpa using hindex)]

theorem ahead_of_used (h : c.chunks[k]? = some chunk) :
    c.ahead ⟨k, chunk.bytes.size⟩ = c.bytesFrom (k + 1) := by
  rw [ahead_of_getElem? h (Nat.le_refl _), ← Array.length_toList, List.drop_length,
    List.nil_append]

/-- A chunk after the first one is empty only at the end of a chain without source. -/
theorem Sound.source_of_empty (hsound : c.Sound) (h : c.chunks[k + 1]? = some chunk)
    (hempty : chunk.bytes.size = 0) : c.source = none := by
  rcases hsound.empty_last h hempty with hzero | ⟨-, hsource⟩
  · cases hzero
  · exact hsource

theorem Sound.not_demands {first : Chunk} (hsound : c.Sound) (hfirst : c.chunks[k]? = some first)
    (h : c.chunks[k + 1]? = some chunk) : ¬ c.Demands .byte ⟨k, first.bytes.size⟩ := by
  rintro ⟨hnil, hsource⟩
  have hahead : c.bytesFrom (k + 1) = [] := (ahead_of_used hfirst).symm.trans hnil
  rw [bytesFrom_of_getElem? h] at hahead
  have hempty : chunk.bytes.size = 0 := by
    rw [← Array.length_toList, (List.append_eq_nil_iff.1 hahead).1]
    rfl
  exact hsource (hsound.source_of_empty h hempty)

theorem drop_content_eq_ahead (h : c.Marks place offset) :
    c.content.bytes.drop offset = c.ahead place ++ c.rest.bytes := by
  obtain ⟨chunk, hchunk, hindex⟩ := h.within
  rw [content_drop_of_marks h hchunk, inputFrom_eq_append, ahead_of_getElem? hchunk hindex,
    List.append_assoc]

theorem Follows.ahead_eq
    {start : Nat} {before window : List UInt8} (h : c.Follows offset k chunk start before window)
    (hmarks : c.Marks place offset) :
    c.ahead place = before ++ chunk.bytes.toList.drop start ++ c.bytesFrom (k + 1) := by
  have hinput := h.input_eq
  rw [drop_content_eq_ahead hmarks, inputFrom_eq_append, ← List.append_assoc] at hinput
  exact List.append_cancel_right hinput

/-- A window that decides decides as all bytes do that are there. -/
theorem Follows.not_demands
    {start : Nat} {before window : List UInt8} (h : c.Follows offset k chunk start before window)
    (hmarks : c.Marks place offset) (hdecided : Utf8.classify window ≠ .incomplete) :
    ¬ c.Demands .rune place := by
  rintro ⟨hundecided, -⟩
  rw [Grain.undecided_rune_iff, h.ahead_eq hmarks] at hundecided
  rw [h.classify_window] at hdecided
  rw [Utf8.classify_append hdecided] at hundecided
  exact hdecided hundecided

/-- Where an open window reaches to the end of the last chunk, it is all that is there. -/
theorem Follows.demands
    {start : Nat} {before window : List UInt8} (h : c.Follows offset k chunk start before window)
    (hmarks : c.Marks place offset) (hopen : Utf8.classify window = .incomplete)
    (hlast : k + 1 = c.chunks.size) (hsource : c.source ≠ none) : c.Demands .rune place := by
  refine ⟨?_, hsource⟩
  rw [Grain.undecided_rune_iff, h.ahead_eq hmarks, hlast, bytesFrom_size, List.append_nil,
    ← h.window_eq_of_incomplete hopen]
  exact hopen

end Chain

/-! ## Requests -/

namespace Journal

theorem requests_eq (journal : Journal) :
    journal.requests =
      (journal.toList.filter fun | .asked _ => true | _ => false).length := by
  rw [requests, ← Array.length_toList]
  exact congrArg List.length Array.toList_filter

theorem requests_append (journal : Journal) (events : List Event) :
    requests (journal ++ events) = journal.requests + requests events.toArray := by
  simp only [requests_eq, Array.toList_appendList, List.filter_append, List.length_append]

theorem requests_pos {events : List Event} {room : Nat} (h : .asked room ∈ events) :
    0 < requests events.toArray := by
  rw [requests_eq]
  exact List.length_pos_of_mem (List.mem_filter.2 ⟨h, rfl⟩)

end Journal

namespace Source

theorem attempts_pos (source : Source) (room : Nat) : 0 < (source.pull room).attempts := by
  have hread : ∀ script : Script, 0 < (script.read room).1 := by
    intro script
    fun_cases script.read room with
    | case1 => exact Nat.succ_pos _
    | case2 => exact Nat.one_pos
    | case3 => exact Nat.one_pos
    | case4 => exact Nat.one_pos
  rw [pull]
  split
  · exact Nat.one_pos
  · exact hread source.script

theorem asked_mem_fill (config : Config) (empties : Nat) (source : Source) :
    .asked config.room ∈ (source.fill config empties).events := by
  have hfirst : .asked config.room ∈ (source.pull config.room).events config.room :=
    List.mem_append_left _
      (List.mem_replicate.2 ⟨Nat.ne_of_gt (attempts_pos source config.room), rfl⟩)
  fun_cases fill config empties source with
  | case1 => exact hfirst
  | case2 => exact List.mem_append_left _ hfirst
  | case3 => exact List.mem_append_left _ hfirst
  | case4 =>
      exact List.mem_append_left _ (List.mem_append_left _ (List.mem_append_left _ hfirst))
  | case5 => exact List.mem_append_left _ hfirst

end Source

/-! ## Pulling as long as it is demanded -/

namespace Feed

open Chain

/-- From one feed to the other, `n` chunks were pulled one after the other, each of them because a
read of this grain from a place demanded it, and then none was demanded any more. -/
inductive Draws (grain : Grain) (place : Place) : Nat → Feed → Feed → Prop
  | enough {feed : Feed} : ¬ feed.chain.Demands grain place → Draws grain place 0 feed feed
  | pull {n : Nat} {feed feed' : Feed} {source : Source} {chunk : Chunk} {rest : Option Source} :
    feed.chain.Demands grain place → feed.chain.source = some source →
      (source.fill feed.chain.config 0).outcome = .ok (chunk, rest) →
      Draws grain place n ⟨feed.chain.push chunk rest,
        feed.journal ++ (source.fill feed.chain.config 0).events⟩ feed' →
      Draws grain place (n + 1) feed feed'

variable {grain : Grain} {place : Place} {n k offset : Nat} {feed feed' : Feed}

theorem Draws.eq_of_not_demands (h : Draws grain place n feed feed')
    (hdemands : ¬ feed.chain.Demands grain place) : n = 0 ∧ feed' = feed := by
  cases h with
  | enough => exact ⟨rfl, rfl⟩
  | pull hpulled => exact absurd hpulled hdemands

theorem Draws.requests_le (h : Draws grain place n feed feed') :
    feed.journal.requests + n ≤ feed'.journal.requests := by
  induction h with
  | enough => exact Nat.le_refl _
  | @pull n feed feed' source chunk rest _ _ _ _ ih =>
      have hpos := Journal.requests_pos (source.asked_mem_fill feed.chain.config 0)
      rw [Journal.requests_append] at ih
      omega

/-- The source is asked exactly if a chunk is demanded. -/
theorem Draws.requests_lt_iff (h : Draws grain place n feed feed') :
    feed.journal.requests < feed'.journal.requests ↔ feed.chain.Demands grain place := by
  constructor
  · intro hlt
    by_contra hdemands
    obtain ⟨-, rfl⟩ := h.eq_of_not_demands hdemands
    exact Nat.lt_irrefl _ hlt
  · intro hdemands
    have hle := h.requests_le
    cases h with
    | enough henough => exact absurd hdemands henough
    | pull => omega

/-! ## Bytes -/

theorem eq_of_passing
    {chunk : Chunk} (hsound : feed.chain.Sound) (h : feed.chain.chunks[k + 1]? = some chunk) :
    (if chunk.bytes.isEmpty then following (k + 1) feed
      else (.ok (.ok (k + 1, chunk)), feed)).2 = feed := by
  split
  · next hempty =>
    have hsource := hsound.source_of_empty h (by simpa using hempty)
    exact (asks_following (k + 1) feed).eq_of_closed hsource
  · rfl

/-- Where the bytes of a chunk are used up, at most one chunk is pulled. -/
theorem draws_following
    {chunk : Chunk} (hsound : feed.chain.Sound)
    (hsafe : ∀ conduct, feed.chain.content.ending ≠ .overclaimed conduct)
    (hchunk : feed.chain.chunks[k]? = some chunk) :
    ∃ n ≤ 1, Draws .byte ⟨k, chunk.bytes.size⟩ n feed (following k feed).2 := by
  have hk := (Array.getElem?_eq_some_iff.1 hchunk).1
  rw [following_eq]
  have hasked := asked_next feed k
  generalize (next k).run feed = result at hasked ⊢
  cases hasked with
  | @present later hlater =>
      refine ⟨0, Nat.zero_le 1, ?_⟩
      dsimp only
      rw [eq_of_passing hsound hlater]
      exact .enough (hsound.not_demands hchunk hlater)
  | beyond hbeyond => omega
  | last hlast hsource => exact ⟨0, Nat.zero_le 1, .enough fun h => h.2 hsource⟩
  | dropped hlast hsource hfill =>
      exact absurd (cut_drop hsound hsource hfill).overclaimed (hsafe _)
  | @pulled source later rest hlast hsource hfill =>
      have hextends := extends_push hsound hsource hfill
      have hlater : (feed.chain.push later rest).chunks[k + 1]? = some later := by
        simp [push, hlast]
      have hdemands : feed.chain.Demands .byte ⟨k, chunk.bytes.size⟩ := by
        refine ⟨?_, by simp [hsource]⟩
        rw [ahead_of_used hchunk, hlast, bytesFrom_size]
        rfl
      refine ⟨1, Nat.le_refl 1, .pull hdemands hsource hfill ?_⟩
      dsimp only
      rw [@eq_of_passing k ⟨feed.chain.push later rest, _⟩ later hextends.sound hlater]
      exact .enough
        (hextends.sound.not_demands (getElem?_of_isPrefix hextends.chunks hchunk) hlater)

theorem draws_byte
    (hsound : feed.chain.Sound) (hmarks : feed.chain.Marks place offset)
    (hsafe : ∀ conduct, feed.chain.content.ending ≠ .overclaimed conduct) :
    ∃ n ≤ 1, Draws .byte place n feed ((byte place).run feed).2 := by
  obtain ⟨chunk, hchunk, hindex⟩ := hmarks.within
  simp only [byte, hchunk]
  split
  · next hlt =>
    refine ⟨0, Nat.zero_le 1, .enough ?_⟩
    rintro ⟨hnil, -⟩
    rw [Grain.Undecided, ahead_of_getElem? hchunk hindex] at hnil
    have hlength := congrArg List.length (List.append_eq_nil_iff.1 hnil).1
    rw [List.length_drop, Array.length_toList, List.length_nil] at hlength
    omega
  · next hend =>
    obtain ⟨k, index⟩ := place
    obtain rfl : index = chunk.bytes.size := by
      simp only at hend hindex
      omega
    rw [if_neg (Nat.lt_irrefl _)]
    obtain ⟨n, hn, hdraws⟩ := draws_following hsound hsafe hchunk
    refine ⟨n, hn, ?_⟩
    -- What is made of the chunk that was found leaves the feed alone.
    rcases hrun : following k feed with ⟨fault | halt | ⟨k', later⟩, feed'⟩
    · rwa [hrun] at hdraws
    · rwa [hrun] at hdraws
    · rw [hrun] at hdraws
      dsimp only
      split
      · exact hdraws
      · exact hdraws

/-! ## Scalar values -/

/-- A sequence is followed with the chunks that it demands. -/
theorem draws_sequenceFrom
    {start earlier : Nat} {chunk : Chunk} {window : List UInt8}
    (h : ∃ before, before.length = earlier ∧
      feed.chain.Follows offset k chunk start before window)
    (hmarks : feed.chain.Marks place offset)
    (hsafe : ∀ conduct, feed.chain.content.ending ≠ .overclaimed conduct) :
    ∃ n, Draws .rune place n feed (sequenceFrom k chunk start earlier window feed).2 := by
  fun_induction sequenceFrom k chunk start earlier window feed with
  | case1 k chunk start earlier window feed hmalformed =>
      obtain ⟨before, -, hfollows⟩ := h
      exact ⟨0, .enough (hfollows.not_demands hmarks (by simp [hmalformed]))⟩
  | case2 k chunk start earlier window feed c hscalar stop hstop =>
      obtain ⟨before, -, hfollows⟩ := h
      exact ⟨0, .enough (hfollows.not_demands hmarks (by simp [hscalar]))⟩
  | case3 k chunk start earlier window feed c hscalar stop hstop =>
      obtain ⟨before, -, hfollows⟩ := h
      exact ⟨0, .enough (hfollows.not_demands hmarks (by simp [hscalar]))⟩
  | case4 k chunk start earlier window feed hopen hfull =>
      have hshort := Utf8.length_lt_maxWidth_of_classify hopen
      omega
  | case5 k chunk start earlier window feed hopen hshort fault feed₁ hnext =>
      obtain ⟨before, -, hfollows⟩ := h
      cases advances_of_next hfollows.sound hfollows.lt_size hnext with
      | fault hcut => exact absurd hcut.overclaimed (hsafe _)
  | case6 k chunk start earlier window feed hopen hshort feed₁ hnext otherwise =>
      cases asked_of_next hnext with
      | last hlast hsource => exact ⟨0, .enough fun h => h.2 hsource⟩
  | case7 k chunk start earlier window feed hopen hshort chunk₁ feed₁ hnext hlt more ih =>
      obtain ⟨before, rfl, hfollows⟩ := h
      cases advances_of_next hfollows.sound hfollows.lt_size hnext with
      | chunk hextends hchunk₁ =>
          obtain ⟨n, hdraws⟩ := ih ⟨window, rfl, hfollows.next hopen hextends hchunk₁⟩
            (marks_of_isPrefix hextends.chunks hmarks) (hextends.content ▸ hsafe)
          cases asked_of_next hnext with
          | present => exact ⟨n, hdraws⟩
          | pulled hlast hsource hfill =>
              have hdemands := hfollows.demands hmarks hopen hlast (by simp [hsource])
              exact ⟨n + 1, .pull hdemands hsource hfill hdraws⟩

theorem draws_rune
    (hsound : feed.chain.Sound) (hmarks : feed.chain.Marks place offset)
    (hsafe : ∀ conduct, feed.chain.content.ending ≠ .overclaimed conduct) :
    ∃ n, Draws .rune place n feed ((rune place).run feed).2 := by
  obtain ⟨chunk, hchunk, hindex⟩ := hmarks.within
  simp only [rune, hchunk]
  rw [if_neg (Nat.not_lt.2 hindex)]
  exact draws_sequenceFrom ⟨[], rfl, .of_marks hsound hmarks hchunk⟩ hmarks hsafe

end Feed
end StreamParse
