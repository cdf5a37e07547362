import StreamParse.Proofs.Chain.Demand

/-!
# Regular streams

A regular source fills every request as long as there are so many bytes left, then delivers the rest
and ends.  The chunks pulled from it are all full but for the last bytes of the input.  The room of
a request is never less than a scalar value needs, so one full chunk decides every read that
demanded it.  Only where the rest of the input came may another pull be needed, and then it is to
find out that there is nothing more.
-/

namespace StreamParse

theorem Config.maxWidth_le_room (config : Config) : Utf8.maxWidth ≤ config.room :=
  Nat.le_trans (by decide) (Nat.le_max_right _ _)

/-! ## Regular sources -/

namespace Source

/-- The source is at its end and says so. -/
def Ends (room : Nat) (source : Source) : Prop :=
  (source.pull room).answer = .filled [] true

/-- The source has these bytes left.  It fills requests as long as it can, then delivers the rest,
which may be no bytes at all, and then ends.  It says that nothing follows only where this is so. -/
inductive Regular (room : Nat) : Source → List UInt8 → Prop
  | full {source : Source} {bytes more : List UInt8} {last : Bool} :
    (source.pull room).answer = .filled bytes last → bytes.length = room →
      (last = true → more = []) → (last = false → Regular room (source.pull room).rest more) →
      Regular room source (bytes ++ more)
  | rest {source : Source} {bytes : List UInt8} {last : Bool} :
    (source.pull room).answer = .filled bytes last → bytes.length < room →
      (last = false → (source.pull room).rest.Ends room) → Regular room source bytes

variable {config : Config} {room empties : Nat} {source : Source} {data bytes : List UInt8}

theorem Ends.regular (hroom : 0 < room) (h : source.Ends room) : source.Regular room [] := by
  refine .rest h hroom ?_
  intro hlast
  cases hlast

theorem Ends.content_eq (hroom : 0 < room) (h : source.Ends room) :
    source.content room = ⟨[], .ended⟩ := by
  rw [content_pull hroom, h]
  rfl

theorem Regular.content_eq (hroom : 0 < room) (h : source.Regular room data) :
    source.content room = ⟨data, .ended⟩ := by
  induction h with
  | @full source bytes more last hanswer _ hlast _ ih =>
      rw [content_pull hroom, hanswer]
      cases last with
      | true =>
          rw [hlast rfl, List.append_nil]
          rfl
      | false =>
          rw [Answer.begin, ih rfl]
          rfl
  | @rest source bytes last hanswer _ hends =>
      rw [content_pull hroom, hanswer]
      cases last with
      | true => rfl
      | false =>
          rw [Answer.begin, (hends rfl).content_eq hroom, Content.prepend, List.append_nil]

end Source

/-! ## How they fill chunks -/

def Fill.answers (fill : Fill) : List Answer :=
  fill.events.filterMap Event.answer?

namespace Source

theorem outcome_fill (config : Config) (empties : Nat) (source : Source) :
    (source.fill config empties).outcome =
      match (source.pull config.room).answer with
      | .overclaimed _ => .error (.overclaimed source.conduct)
      | .failed failure => .ok (.failed failure, none)
      | .filled bytes true => .ok (.filled bytes, none)
      | .filled [] false => ((source.pull config.room).rest.fill config (empties + 1)).outcome
      | .filled (b :: bytes) false =>
        .ok (.filled (b :: bytes), some (source.pull config.room).rest) := by
  fun_cases fill config empties source with
  | case1 claimed hanswer => rw [hanswer]
  | case2 failure hanswer => rw [hanswer]
  | case3 bytes hanswer => rw [hanswer]
  | case4 hanswer => rw [hanswer]
  | case5 b bytes hanswer => rw [hanswer]

/-- Only after an answer without bytes, which does not name the end, another one is asked for. -/
theorem answers_fill (config : Config) (empties : Nat) (source : Source) :
    (source.fill config empties).answers =
      (source.pull config.room).answer ::
        match (source.pull config.room).answer with
        | .filled [] false => ((source.pull config.room).rest.fill config (empties + 1)).answers
        | _ => [] := by
  simp only [Fill.answers]
  fun_cases fill config empties source with
  | case1 claimed hanswer => rw [Pull.answers_events, hanswer]
  | case2 failure hanswer =>
      rw [List.filterMap_append, Pull.answers_events, hanswer]
      rfl
  | case3 bytes hanswer =>
      rw [List.filterMap_append, Pull.answers_events, hanswer]
      cases bytes with
      | nil => rfl
      | cons b bytes => rfl
  | case4 hanswer hlt later =>
      obtain ⟨hnone, -⟩ := retryNotes_eq (empties + 1)
      simp only [List.filterMap_append, Pull.answers_events, hanswer, hnone]
      rfl
  | case5 b bytes hanswer =>
      rw [List.filterMap_append, Pull.answers_events, hanswer]
      rfl

end Source

/-- How a regular source that has these bytes left fills a chunk: it fills it up, or it delivers the
rest and is at its end then, or it has nothing to deliver and needs another pull to say so. -/
inductive Fill.Even (room : Nat) (fill : Fill) : List UInt8 → Prop
  | full {chunk : Chunk} {rest : Option Source} {more : List UInt8} :
    fill.outcome = .ok (chunk, rest) → chunk.bytes.size = room → fill.answers.length = 1 →
      (∀ source, rest = some source → source.Regular room more) →
      Even room fill (chunk.bytes.toList ++ more)
  | short {chunk : Chunk} {rest : Option Source} :
    fill.outcome = .ok (chunk, rest) → fill.answers.length = 1 →
      (∀ source, rest = some source → source.Ends room) → Even room fill chunk.bytes.toList
  | vain {chunk : Chunk} :
    fill.outcome = .ok (chunk, none) → chunk.bytes.toList = [] → fill.answers.length = 2 →
      Even room fill []

namespace Source

variable {config : Config} {source : Source} {data : List UInt8}

theorem Ends.fill (h : source.Ends config.room) (empties : Nat) :
    (source.fill config empties).outcome = .ok (.filled [], none) ∧
      (source.fill config empties).answers.length = 1 := by
  rw [outcome_fill, answers_fill, h]
  exact ⟨rfl, rfl⟩

/-- A regular source fills chunks evenly. -/
theorem Regular.fill (h : source.Regular config.room data) (empties : Nat) :
    (source.fill config empties).Even config.room data := by
  have houtcome := outcome_fill config empties source
  have hanswers := answers_fill config empties source
  cases h with
  | @full _ bytes more last hanswer hlength hlast hrest =>
      rw [hanswer] at houtcome hanswers
      rcases bytes with _ | ⟨b, bytes⟩
      · exact absurd hlength.symm (Nat.ne_of_gt config.room_pos)
      cases last with
      | true =>
          refine .full houtcome hlength (by rw [hanswers]; rfl) ?_
          rintro source ⟨⟩
      | false =>
          refine .full houtcome hlength (by rw [hanswers]; rfl) ?_
          rintro source ⟨⟩
          exact hrest rfl
  | @rest _ _ last hanswer hlength hends =>
      rw [hanswer] at houtcome hanswers
      cases last with
      | true =>
          refine .short houtcome ?_ ?_
          · rw [hanswers]
            cases data with
            | nil => rfl
            | cons b data => rfl
          · rintro source ⟨⟩
      | false =>
          rcases data with _ | ⟨b, data⟩
          · obtain ⟨hlater, hlength⟩ := (hends rfl).fill (empties + 1)
            refine .vain (houtcome.trans hlater) rfl ?_
            rw [hanswers, List.length_cons, hlength]
          · refine .short houtcome (by rw [hanswers]; rfl) ?_
            rintro source ⟨⟩
            exact hends rfl

end Source

/-- A chunk is full, or what is left of the source is at its end.  In any case it is regular. -/
theorem Fill.Even.of_outcome
    {room : Nat} {fill : Fill} {data : List UInt8} {chunk : Chunk} {rest : Option Source}
    (h : fill.Even room data) (hroom : 0 < room) (houtcome : fill.outcome = .ok (chunk, rest)) :
    (chunk.bytes.size = room ∨ ∀ source, rest = some source → source.Ends room) ∧
      ∀ source, rest = some source → ∃ more, source.Regular room more := by
  cases h with
  | full heq hsize _ hregular =>
      rw [houtcome] at heq
      cases heq
      exact ⟨Or.inl hsize, fun source hsource => ⟨_, hregular source hsource⟩⟩
  | short heq _ hends =>
      rw [houtcome] at heq
      cases heq
      exact ⟨Or.inr hends, fun source hsource => ⟨[], (hends source hsource).regular hroom⟩⟩
  | vain heq _ _ =>
      rw [houtcome] at heq
      cases heq
      refine ⟨Or.inr ?_, ?_⟩
      · rintro source ⟨⟩
      · rintro source ⟨⟩

theorem Fill.Even.outcome_ne_error
    {room : Nat} {fill : Fill} {data : List UInt8} (h : fill.Even room data) (fault : Fault) :
    fill.outcome ≠ .error fault := by
  cases h with
  | full heq => simp [heq]
  | short heq => simp [heq]
  | vain heq => simp [heq]

/-! ## Chains of regular sources -/

namespace Chain

/-- What is pulled from a regular source: chunks that are full, or after which there is nothing
more.  What is left of the source is regular too. -/
structure Even (c : Chain) : Prop where
  sound : c.Sound
  full_or_last : ∀ {k : Nat} {chunk : Chunk}, c.chunks[k + 1]? = some chunk →
    chunk.bytes.size = c.config.room ∨ c.inputFrom (k + 2) = []
  regular : ∀ {source : Source}, c.source = some source → ∃ data, source.Regular c.config.room data
  ended : c.content.ending = .ended

variable {c c' : Chain} {source : Source} {chunk : Chunk} {rest : Option Source} {place : Place}
  {offset : Nat}

theorem rest_push (c : Chain) (chunk : Chunk) (rest : Option Source) :
    (c.push chunk rest).rest = chunk.following c.config rest := by
  simp [Chain.rest, push]

theorem even_push
    (h : c.Even) (hsource : c.source = some source)
    (hfill : (source.fill c.config 0).outcome = .ok (chunk, rest)) : (c.push chunk rest).Even := by
  obtain ⟨data, hregular⟩ := h.regular hsource
  obtain ⟨hchunk, hrest⟩ := (hregular.fill 0).of_outcome c.config.room_pos hfill
  have hextends := extends_push h.sound hsource hfill
  have hsize : (c.push chunk rest).chunks.size = c.chunks.size + 1 := Array.size_push chunk
  refine ⟨hextends.sound, ?_, fun hsource' => hrest _ hsource', hextends.content ▸ h.ended⟩
  intro k later hlater
  simp only [push, Array.getElem?_push] at hlater
  split at hlater
  · next hlast =>
    cases hlater
    refine hchunk.imp id ?_
    intro hends
    have hfollowing : (c.push chunk rest).inputFrom (k + 2) =
        (chunk.following c.config rest).bytes := by
      rw [← rest_push, ← inputFrom_size, hsize, ← hlast]
    rw [hfollowing]
    cases rest with
    | none => rfl
    | some source' => exact congrArg Content.bytes ((hends _ rfl).content_eq c.config.room_pos)
  · refine (h.full_or_last hlater).imp id ?_
    intro hnothing
    have hlt := (Array.getElem?_eq_some_iff.1 hlater).1
    rwa [hextends.inputFrom_eq hlt]

theorem Even.next (h : c.Even) (k : Nat) (journal : Journal) :
    ((Feed.next k).run ⟨c, journal⟩).2.chain.Even := by
  have hasked := Feed.asked_next ⟨c, journal⟩ k
  generalize (Feed.next k).run ⟨c, journal⟩ = result at hasked ⊢
  cases hasked with
  | present => exact h
  | beyond => exact h
  | last => exact h
  | dropped hlast hsource hfill =>
      obtain ⟨data, hregular⟩ := h.regular hsource
      exact absurd hfill ((hregular.fill 0).outcome_ne_error _)
  | pulled hlast hsource hfill => exact even_push h hsource hfill

theorem Even.pulls (h : c.Even) (hpulls : c.Pulls c') : c'.Even := by
  induction hpulls with
  | refl => exact h
  | next k journal _ ih => exact ih.next k journal

theorem bytesFrom_push {k : Nat} (h : k ≤ c.chunks.size) (chunk : Chunk) (rest : Option Source) :
    (c.push chunk rest).bytesFrom k = c.bytesFrom k ++ chunk.bytes.toList := by
  have hk : k ≤ c.chunks.toList.length := by simpa using h
  rw [bytesFrom, push, Array.toList_push, List.drop_append_of_le_length hk, List.flatMap_append,
    bytesFrom]
  simp

theorem ahead_push (h : c.Marks place offset) (chunk : Chunk) (rest : Option Source) :
    (c.push chunk rest).ahead place = c.ahead place ++ chunk.bytes.toList := by
  obtain ⟨current, hcurrent, hindex⟩ := h.within
  have hlt := (Array.getElem?_eq_some_iff.1 hcurrent).1
  have hwithin : place.index ≤ (c.bytesFrom place.chunk).length := by
    rw [bytesFrom_of_getElem? hcurrent, List.length_append, Array.length_toList]
    omega
  rw [ahead, bytesFrom_push (Nat.le_of_lt hlt), List.drop_append_of_le_length hwithin, ahead]

/-- A full chunk has bytes enough for a scalar value. -/
theorem not_demands_push_of_full
    (h : c.Marks place offset) (hsize : chunk.bytes.size = c.config.room) (rest : Option Source) :
    ¬ (c.push chunk rest).Demands .rune place := by
  rintro ⟨hundecided, -⟩
  have hshort := Utf8.length_lt_maxWidth_of_classify ((Grain.undecided_rune_iff _).1 hundecided)
  have hroom := c.config.maxWidth_le_room
  have hfull : chunk.bytes.toList.length = c.config.room := Array.length_toList.trans hsize
  rw [ahead_push h, List.length_append, hfull] at hshort
  omega

theorem undecided_of_demands
    (h : c.Marks place offset) (hdemands : c.Demands .rune place) (hrest : c.rest.bytes = []) :
    Grain.rune.Undecided (c.content.bytes.drop offset) := by
  rw [drop_content_eq_ahead h, hrest, List.append_nil]
  exact hdemands.1

/-- The bytes of chunk `k` and of the chunk after it. -/
def pair (c : Chain) (k : Nat) : List UInt8 :=
  ((c.chunks.toList.drop k).take 2).flatMap (·.bytes.toList)

theorem bytesFrom_eq_pair_append (c : Chain) (k : Nat) :
    c.bytesFrom k = c.pair k ++ c.bytesFrom (k + 2) := by
  rw [bytesFrom, pair, bytesFrom, ← List.flatMap_append, ← List.drop_drop, List.take_append_drop]

theorem pair_of_getElem? {k : Nat} {later : Chunk} (h : c.chunks[k]? = some chunk)
    (hlater : c.chunks[k + 1]? = some later) :
    c.pair k = chunk.bytes.toList ++ later.bytes.toList := by
  have hpair := bytesFrom_eq_pair_append c k
  rw [bytesFrom_of_getElem? h, bytesFrom_of_getElem? hlater, ← List.append_assoc] at hpair
  exact (List.append_cancel_right hpair).symm

theorem isPrefix_ahead
    (hsound : c.Sound) (h : c.Marks place offset) (hdemands : ¬ c.Demands .rune place)
    {scalar : Char} (hscalar : String.utf8EncodeChar scalar <+: c.content.bytes.drop offset) :
    String.utf8EncodeChar scalar <+: c.ahead place := by
  rw [drop_content_eq_ahead h] at hscalar
  by_cases hopen : Utf8.classify (c.ahead place) = .incomplete
  · have hsource : c.source = none := by
      by_contra hsome
      exact hdemands ⟨(Grain.undecided_rune_iff _).2 hopen, hsome⟩
    rwa [hsound.rest_bytes_eq_nil hsource, List.append_nil] at hscalar
  · rw [← Utf8.classify_eq_scalar_iff, Utf8.classify_append hopen] at hscalar
    exact Utf8.classify_eq_scalar_iff.1 hscalar

/-- A scalar value that is there lies in two chunks. -/
theorem Even.isPrefix_pair
    (heven : c.Even) (h : c.Marks place offset) {scalar : Char}
    (hscalar : String.utf8EncodeChar scalar <+: c.ahead place) :
    String.utf8EncodeChar scalar <+: (c.pair place.chunk).drop place.index := by
  obtain ⟨chunk, hchunk, hindex⟩ := h.within
  -- Everything is in these two chunks where nothing comes after them.
  have hlast : c.bytesFrom (place.chunk + 2) = [] →
      String.utf8EncodeChar scalar <+: (c.pair place.chunk).drop place.index := by
    intro hnil
    rwa [ahead, bytesFrom_eq_pair_append, hnil, List.append_nil] at hscalar
  cases hlater : c.chunks[place.chunk + 1]? with
  | none =>
      have hsize := Array.getElem?_eq_none_iff.1 hlater
      have hdrop : c.chunks.toList.drop (place.chunk + 2) = [] :=
        List.drop_eq_nil_of_le (by simpa using Nat.le_succ_of_le hsize)
      exact hlast (by rw [bytesFrom, hdrop, List.flatMap_nil])
  | some later =>
      rcases heven.full_or_last hlater with hfull | hnothing
      · rw [ahead_of_getElem? hchunk hindex, bytesFrom_of_getElem? hlater, ← List.append_assoc]
          at hscalar
        rw [pair_of_getElem? hchunk hlater, List.drop_append_of_le_length (by simpa using hindex)]
        refine List.prefix_of_prefix_length_le hscalar (List.prefix_append _ _) ?_
        have hwidth : scalar.utf8Size ≤ Utf8.maxWidth := scalar.utf8Size_le_four
        have hlength : later.bytes.toList.length = c.config.room := Array.length_toList.trans hfull
        rw [String.length_utf8EncodeChar, List.length_append, hlength]
        exact Nat.le_add_left_of_le (Nat.le_trans hwidth c.config.maxWidth_le_room)
      · rw [inputFrom_eq_append] at hnothing
        exact hlast (List.append_eq_nil_iff.1 hnothing).1

end Chain

/-! ## How often they are asked -/

namespace Journal

theorem answers_append (journal : Journal) (events : List Event) :
    answers (journal ++ events) = journal.answers ++ events.filterMap Event.answer? := by
  rw [answers, Array.toList_appendList, List.filterMap_append]
  rfl

theorem length_answers_append (journal : Journal) (fill : Fill) :
    (answers (journal ++ fill.events)).length = journal.answers.length + fill.answers.length := by
  rw [answers_append, List.length_append]
  rfl

end Journal

namespace Feed

open Chain

variable {place : Place} {n offset : Nat} {feed feed' : Feed}

theorem Draws.not_demands {grain : Grain} (h : Draws grain place n feed feed') :
    ¬ feed'.chain.Demands grain place := by
  induction h with
  | enough hdemands => exact hdemands
  | pull _ _ _ _ ih => exact ih

theorem Draws.extends {grain : Grain} (h : Draws grain place n feed feed')
    (hsound : feed.chain.Sound) : feed.chain.Extends feed'.chain := by
  induction h with
  | enough => exact .refl hsound
  | pull _ hsource hfill _ ih =>
      have hpush := extends_push hsound hsource hfill
      exact hpush.trans (ih hpush.sound)

/-- Chunks that a regular source is asked for on demand keep to its chain being even. -/
theorem Draws.even {grain : Grain} (h : Draws grain place n feed feed')
    (heven : feed.chain.Even) : feed'.chain.Even := by
  induction h with
  | enough => exact heven
  | pull _ hsource hfill _ ih => exact ih (even_push heven hsource hfill)

theorem Draws.eq_of_sourceless
    {grain : Grain} (h : Draws grain place n feed feed') (hsource : feed.chain.source = none) :
    feed' = feed :=
  (h.eq_of_not_demands fun hdemands => hdemands.2 hsource).2

/-- A source at its end is asked at most once, and only where what is left of the input is no scalar
value yet. -/
theorem Draws.exists_answers_of_ends
    (h : Draws .rune place n feed feed') (hsound : feed.chain.Sound)
    (hmarks : feed.chain.Marks place offset)
    (hends : ∀ source, feed.chain.source = some source → source.Ends feed.chain.config.room) :
    ∃ m ≤ 1, feed'.journal.answers.length = feed.journal.answers.length + m ∧
      (m = 1 → Grain.rune.Undecided (feed.chain.content.bytes.drop offset)) := by
  cases h with
  | enough =>
      refine ⟨0, Nat.zero_le 1, rfl, ?_⟩
      rintro ⟨⟩
  | @pull n _ _ source chunk rest hdemands hsource hfill hdraws =>
      have hend := hends source hsource
      have hnothing : feed.chain.rest = ⟨[], .ended⟩ :=
        (rest_of_source hsound hsource).trans (hend.content_eq feed.chain.config.room_pos)
      obtain ⟨houtcome, hanswers⟩ := hend.fill 0
      rw [hfill] at houtcome
      cases houtcome
      obtain rfl := hdraws.eq_of_sourceless rfl
      refine ⟨1, Nat.le_refl 1, ?_, ?_⟩
      · rw [Journal.length_answers_append, hanswers]
      · intro _
        exact undecided_of_demands hmarks hdemands (congrArg Content.bytes hnothing)

/-- A regular source is asked at most twice, and twice only where what is left of the input is no
scalar value yet. -/
theorem Draws.exists_answers
    (h : Draws .rune place n feed feed') (heven : feed.chain.Even)
    (hmarks : feed.chain.Marks place offset) :
    ∃ m ≤ 2, feed'.journal.answers.length = feed.journal.answers.length + m ∧
      (m = 2 → Grain.rune.Undecided (feed.chain.content.bytes.drop offset)) := by
  cases h with
  | enough =>
      refine ⟨0, Nat.zero_le 2, rfl, ?_⟩
      rintro ⟨⟩
  | @pull n _ _ source chunk rest hdemands hsource hfill hdraws =>
      obtain ⟨data, hregular⟩ := heven.regular hsource
      have hdata := rest_of_source heven.sound hsource
      rw [hregular.content_eq feed.chain.config.room_pos] at hdata
      have hextends := extends_push heven.sound hsource hfill
      have hmarks' := marks_of_isPrefix hextends.chunks hmarks
      have hfilled := hregular.fill 0
      cases hfilled with
      | full houtcome hsize hanswers _ =>
          rw [hfill] at houtcome
          cases houtcome
          have henough := not_demands_push_of_full hmarks hsize rest
          obtain ⟨-, rfl⟩ := hdraws.eq_of_not_demands henough
          refine ⟨1, Nat.le_succ 1, ?_, ?_⟩
          · rw [Journal.length_answers_append, hanswers]
          · rintro ⟨⟩
      | vain houtcome hempty hanswers =>
          rw [hfill] at houtcome
          cases houtcome
          obtain rfl := hdraws.eq_of_sourceless rfl
          refine ⟨2, Nat.le_refl 2, ?_, ?_⟩
          · rw [Journal.length_answers_append, hanswers]
          · intro _
            exact undecided_of_demands hmarks hdemands (congrArg Content.bytes hdata)
      | short houtcome hanswers hends =>
          rw [hfill] at houtcome
          cases houtcome
          -- The rest has come, and the source can only say that there is no more.
          obtain ⟨m, hm, hlength, hone⟩ :=
            hdraws.exists_answers_of_ends hextends.sound hmarks' hends
          refine ⟨m + 1, Nat.succ_le_succ hm, ?_, ?_⟩
          · rw [hlength, Journal.length_answers_append, hanswers, Nat.add_assoc, Nat.add_comm 1 m]
          · intro htwo
            rw [← hextends.content]
            exact hone (Nat.succ.inj htwo)

end Feed
end StreamParse
