import StreamParse.Proofs.Chain.Growth

/-!
# How chains are laid out

Whatever is asked of a chain, chunks are only appended to it, none of them is larger than the room
of a request, and every request is for just that room.  Along with the invariant of chains this
says where its bytes stand: what is there is the beginning of the content, and once no source is
left it is all of it.
-/

namespace StreamParse

/-! ## What one pull does -/

namespace Script

theorem length_le_of_supply
    {room : Nat} {script : Script} {bytes : List UInt8} {last : Bool}
    (h : (supply room script).1 = .filled bytes last) : bytes.length ≤ room := by
  cases script with
  | nil =>
      cases h
      exact Nat.zero_le _
  | cons step rest =>
      cases step with
      | fail failure => cases h
      | overclaim excess =>
          cases excess with
          | zero =>
              cases h
              exact Nat.le_of_eq List.length_replicate
          | succ excess => cases h
      | deliver given flag =>
          by_cases hle : given.length ≤ room
          · rw [supply_deliver_of_le hle] at h
            cases h
            exact hle
          · rw [supply_deliver_of_lt (Nat.lt_of_not_le hle)] at h
            cases h
            exact List.length_take_le _ _

theorem length_le_of_read
    {room : Nat} {script : Script} {bytes : List UInt8} {last : Bool}
    (h : (read room script).2.1 = .filled bytes last) : bytes.length ≤ room := by
  fun_induction read room script with
  | case1 failure rest hkind later ih => exact ih h
  | case2 => cases h
  | case3 script _ given written ended hgiven =>
      cases h
      exact length_le_of_supply hgiven
  | case4 script _ given hne => exact absurd h (hne _ _)

end Script

namespace Source

/-- A source that does not overclaim writes within the room it is offered. -/
theorem length_le_of_pull
    {source : Source} {room : Nat} {bytes : List UInt8} {last : Bool}
    (h : (source.pull room).answer = .filled bytes last) : bytes.length ≤ room := by
  obtain ⟨conduct, script⟩ := source
  cases conduct with
  | supplier => exact Script.length_le_of_supply h
  | reader => exact Script.length_le_of_read h

theorem size_le_of_fill
    {config : Config} {empties : Nat} {source : Source} {chunk : Chunk} {rest : Option Source}
    (h : (source.fill config empties).outcome = .ok (chunk, rest)) :
    chunk.bytes.size ≤ config.room := by
  fun_induction fill config empties source with
  | case1 => cases h
  | case2 =>
      cases h
      exact Nat.zero_le _
  | case3 empties source bytes hanswer =>
      cases h
      simpa [Chunk.filled] using length_le_of_pull hanswer
  | case4 empties source hanswer hlt later ih => exact ih h
  | case5 empties source b bytes hanswer =>
      cases h
      simpa [Chunk.filled] using length_le_of_pull hanswer

theorem room_of_asked
    {config : Config} {empties room : Nat} {source : Source}
    (h : .asked room ∈ (source.fill config empties).events) : room = config.room := by
  have hevents : ∀ pull : Pull, .asked room ∈ pull.events config.room → room = config.room := by
    intro pull hmem
    rcases List.mem_append.1 hmem with hasked | hanswered
    · cases List.eq_of_mem_replicate hasked
      rfl
    · cases List.mem_singleton.1 hanswered
  fun_induction fill config empties source with
  | case1 => exact hevents _ h
  | case2 =>
      rcases List.mem_append.1 h with hpull | hnote
      · exact hevents _ hpull
      · cases List.mem_singleton.1 hnote
  | case3 =>
      rcases List.mem_append.1 h with hpull | hnotes
      · exact hevents _ hpull
      · simp at hnotes
  | case4 empties source hanswer hlt later ih =>
      rcases List.mem_append.1 h with hbefore | hlater
      · rcases List.mem_append.1 hbefore with hpull | hretry
        · rcases List.mem_append.1 hpull with hpull | hnote
          · exact hevents _ hpull
          · cases List.mem_singleton.1 hnote
        · rw [retryNotes] at hretry
          split at hretry
          · cases List.mem_singleton.1 hretry
          · cases hretry
      · exact ih hlater
  | case5 =>
      rcases List.mem_append.1 h with hpull | hnote
      · exact hevents _ hpull
      · cases List.mem_singleton.1 hnote

end Source

/-! ## What a chain comes to -/

namespace Chain

/-- Requests for chunks lead from one chain to the other, whatever the journal was at each. -/
inductive Pulls (c : Chain) : Chain → Prop
  | refl : Pulls c c
  | next {c' : Chain} (k : Nat) (journal : Journal) :
    Pulls c c' → Pulls c ((Feed.next k).run ⟨c', journal⟩).2.chain

variable {c c' c'' : Chain}

theorem Pulls.trans (h : c.Pulls c') (h' : c'.Pulls c'') : c.Pulls c'' := by
  induction h' with
  | refl => exact h
  | next k journal _ ih => exact .next k journal ih

theorem Pulls.grown (h : c.Pulls c') : c.Grown c' := by
  induction h with
  | refl => exact Grown.refl c
  | @next c' k journal _ ih =>
      have hasks : Feed.Asks ⟨c', journal⟩ ((Feed.next k).run ⟨c', journal⟩).2 := .next k .refl
      exact ih.trans hasks.grown

def bytes (c : Chain) : List UInt8 :=
  c.chunks.toList.flatMap (·.bytes.toList)

theorem Sound.rest_bytes_eq_nil (h : c.Sound) (hsource : c.source = none) : c.rest.bytes = [] := by
  have hlt : c.chunks.size - 1 < c.chunks.size := Nat.sub_lt h.nonempty Nat.one_pos
  have hlast : c.chunks.size - 1 + 1 = c.chunks.size := Nat.sub_add_cancel h.nonempty
  rw [rest_of_last hlast (Array.getElem?_eq_getElem hlt), hsource]
  rfl

/-- What a chain has come to that began as `start`: its chunks keep to the invariant of chains,
the later ones were pulled, and its content has the same bytes. -/
structure Laid (start c : Chain) : Prop where
  sound : c.Sound
  config : c.config = start.config
  first : c.chunks[0]? = start.chunks[0]?
  size_le : ∀ {k : Nat} {chunk : Chunk}, c.chunks[k]? = some chunk → 0 < k →
    chunk.bytes.size ≤ start.config.room
  content : c.content.bytes = start.content.bytes

variable {start : Chain}

theorem Laid.of_singleton (hsound : start.Sound) (hsize : start.chunks.size = 1) :
    start.Laid start where
  sound := hsound
  config := rfl
  first := rfl
  size_le hchunk hpos := by
    have hlt := (Array.getElem?_eq_some_iff.1 hchunk).1
    omega
  content := rfl

theorem Laid.next (h : start.Laid c) (k : Nat) (journal : Journal) :
    start.Laid ((Feed.next k).run ⟨c, journal⟩).2.chain := by
  have hasked := Feed.asked_next ⟨c, journal⟩ k
  generalize (Feed.next k).run ⟨c, journal⟩ = result at hasked ⊢
  cases hasked with
  | present => exact h
  | beyond => exact h
  | last => exact h
  | dropped hlast hsource hfill =>
      have hcut := cut_drop h.sound hsource hfill
      refine ⟨hcut.sound, h.config, h.first, h.size_le, ?_⟩
      rw [hcut.content, Content.bytes_settled]
      exact h.content
  | @pulled source chunk rest hlast hsource hfill =>
      have hextends := extends_push h.sound hsource hfill
      refine ⟨hextends.sound, h.config, ?_, ?_, ?_⟩
      · change (c.chunks.push chunk)[0]? = start.chunks[0]?
        rw [Array.getElem?_push_lt h.sound.nonempty, ← Array.getElem?_eq_getElem, h.first]
      · intro k' chunk' hchunk hpos
        simp only [push, Array.getElem?_push] at hchunk
        split at hchunk
        · cases hchunk
          exact h.config ▸ Source.size_le_of_fill hfill
        · exact h.size_le hchunk hpos
      · rw [hextends.content]
        exact h.content

theorem Laid.pulls (h : start.Laid c) (hpulls : c.Pulls c') : start.Laid c' := by
  induction hpulls with
  | refl => exact h
  | next k journal _ ih => exact ih.next k journal

/-- What is there is the beginning of the content. -/
theorem Laid.isPrefix (h : start.Laid c) : c.bytes <+: start.content.bytes := by
  rw [← h.content]
  exact List.prefix_append _ _

theorem Laid.bytes_eq (h : start.Laid c) (hsource : c.source = none) :
    c.bytes = start.content.bytes := by
  have hcontent : c.content.bytes = c.bytes ++ c.rest.bytes := rfl
  rw [← h.content, hcontent, h.sound.rest_bytes_eq_nil hsource, List.append_nil]

end Chain

namespace Feed

variable {feed feed' : Feed}

theorem Asks.pulls (h : feed.Asks feed') : feed.chain.Pulls feed'.chain := by
  induction h with
  | refl => exact .refl
  | @next feed₁ k _ ih => exact .next k feed₁.journal ih

/-- The journal is only written to, and all requests are for the room of the chain, as long as it
has a source. -/
theorem Asks.requests (h : feed.Asks feed') :
    ∃ events, feed'.journal.toList = feed.journal.toList ++ events ∧
      ∀ room, .asked room ∈ events →
        room = feed.chain.config.room ∧ feed.chain.source ≠ none := by
  induction h with
  | refl => exact ⟨[], by simp, by simp⟩
  | @next feed₁ k hasks ih =>
      obtain ⟨events, hjournal, hrooms⟩ := ih
      have hgrown := hasks.grown
      have hasked := asked_next feed₁ k
      -- Only where the source is asked, something is added.
      have hadded : ∀ {source : Source}, feed₁.chain.source = some source →
          ∀ room, .asked room ∈ events ++ (source.fill feed₁.chain.config 0).events →
            room = feed.chain.config.room ∧ feed.chain.source ≠ none := by
        intro source hsource room hmem
        rcases List.mem_append.1 hmem with hmem | hmem
        · exact hrooms room hmem
        · refine ⟨hgrown.config ▸ Source.room_of_asked hmem, ?_⟩
          intro hclosed
          rw [hgrown.closed hclosed, hclosed] at hsource
          cases hsource
      generalize (Feed.next k).run feed₁ = result at hasked ⊢
      cases hasked with
      | present => exact ⟨events, hjournal, hrooms⟩
      | beyond => exact ⟨events, hjournal, hrooms⟩
      | last => exact ⟨events, hjournal, hrooms⟩
      | dropped _ hsource _ => exact ⟨_, by simp [hjournal], hadded hsource⟩
      | pulled _ hsource _ => exact ⟨_, by simp [hjournal], hadded hsource⟩

end Feed
end StreamParse
