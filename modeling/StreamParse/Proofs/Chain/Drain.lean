import StreamParse.Proofs.Chain.Growth
import StreamParse.Proofs.Chain.Reading

/-!
# How a source is drained

The pull of one chunk is a round of requests to the source: some in vain, and one whose answer ends
the round.  Unless that answer closes the source, the next round goes on with what is left of it.
So a source has its rounds once and for all.  What is read from a chain, and in which order, decides
how many of these rounds have taken place, and nothing else about them.
-/

namespace StreamParse

/-- Nothing is asked of a source after such an answer. -/
def Answer.Closes : Answer → Prop
  | .filled _ exhausted => exhausted = true
  | .failed _ => True
  | .overclaimed _ => True

/-- What is noted on the answer that ends a round. -/
def Answer.notes (room : Nat) : Answer → List Note
  | .filled bytes false => [.pulled bytes.length room]
  | .filled bytes true => [.pulled bytes.length room, .exhausted]
  | .failed failure => [.failed failure]
  | .overclaimed _ => []

/-- The pull of one chunk: the number of requests in vain, and the answer after them. -/
structure Round where
  empties : Nat
  answer : Answer

namespace Round

def answers (round : Round) : List Answer :=
  List.replicate round.empties (.filled [] false) ++ [round.answer]

def notesInVain (room n : Nat) : List Note :=
  .pulled 0 room :: if n.isPowerOfTwo then [.retrying n] else []

/-- What is noted on a round. -/
def notes (room : Nat) (round : Round) : List Note :=
  (List.range' 1 round.empties).flatMap (notesInVain room) ++ round.answer.notes room

end Round

namespace Event

def answer? : Event → Option Answer
  | .answered answer => some answer
  | _ => none

def note? : Event → Option Note
  | .noted note => some note
  | _ => none

/-- The answer that an event tells closes the source. -/
def Closes (event : Event) : Prop :=
  ∃ answer, event.answer? = some answer ∧ answer.Closes

/-- Of two events the later one is no request if the earlier one closes the source. -/
def Heeded (event later : Event) : Prop :=
  event.Closes → ∀ room, later ≠ .asked room

end Event

def Journal.answers (journal : Journal) : List Answer :=
  journal.toList.filterMap Event.answer?

theorem Journal.notes_eq (journal : Journal) :
    journal.notes = journal.toList.filterMap Event.note? := by
  rw [notes]
  rfl

namespace Pull

theorem answers_events (pull : Pull) (room : Nat) :
    (pull.events room).filterMap Event.answer? = [pull.answer] := by
  simp [events, List.filterMap_replicate, Event.answer?]

theorem notes_events (pull : Pull) (room : Nat) :
    (pull.events room).filterMap Event.note? = [] := by
  simp [events, List.filterMap_replicate, Event.note?]

end Pull

/-! ## Rounds -/

namespace Source

theorem retryNotes_eq (empties : Nat) :
    (retryNotes empties).filterMap Event.answer? = [] ∧
      (retryNotes empties).filterMap Event.note? =
        if empties.isPowerOfTwo then [.retrying empties] else [] := by
  rw [retryNotes]
  split
  · exact ⟨rfl, rfl⟩
  · exact ⟨rfl, rfl⟩

/-- The pull of one chunk is a round, of which `empties` requests in vain were made before. -/
theorem exists_round (config : Config) (empties : Nat) (source : Source) :
    ∃ round : Round, round.answer ≠ .filled [] false ∧
      (source.fill config empties).events.filterMap Event.answer? = round.answers ∧
      (source.fill config empties).events.filterMap Event.note? =
        (List.range' (empties + 1) round.empties).flatMap (Round.notesInVain config.room) ++
          round.answer.notes config.room := by
  fun_induction fill config empties source with
  | case1 empties source claimed hanswer =>
      refine ⟨⟨0, .overclaimed claimed⟩, by simp, ?_, ?_⟩
      · rw [Pull.answers_events, hanswer]
        rfl
      · rw [Pull.notes_events]
        rfl
  | case2 empties source failure hanswer =>
      refine ⟨⟨0, .failed failure⟩, by simp, ?_, ?_⟩
      · rw [List.filterMap_append, Pull.answers_events, hanswer]
        rfl
      · rw [List.filterMap_append, Pull.notes_events]
        rfl
  | case3 empties source bytes hanswer =>
      refine ⟨⟨0, .filled bytes true⟩, by simp, ?_, ?_⟩
      · rw [List.filterMap_append, Pull.answers_events, hanswer]
        rfl
      · rw [List.filterMap_append, Pull.notes_events]
        rfl
  | case4 empties source hanswer hlt later ih =>
      obtain ⟨⟨n, answer⟩, hdecides, hanswers, hnotes⟩ := ih
      obtain ⟨hnone, hretry⟩ := retryNotes_eq (empties + 1)
      refine ⟨⟨n + 1, answer⟩, hdecides, ?_, ?_⟩
      · simp only [List.filterMap_append, Pull.answers_events, hanswer, hnone, later, hanswers]
        rfl
      · simp only [List.filterMap_append, Pull.notes_events, hretry, later, hnotes]
        rw [List.range'_succ, List.flatMap_cons]
        simp [Round.notesInVain, Event.note?]
  | case5 empties source b bytes hanswer =>
      refine ⟨⟨0, .filled (b :: bytes) false⟩, by simp, ?_, ?_⟩
      · rw [List.filterMap_append, Pull.answers_events, hanswer]
        rfl
      · rw [List.filterMap_append, Pull.notes_events]
        rfl

end Source

/-! ## Answers that close the source -/

namespace Event

theorem not_closes_asked (room : Nat) : ¬ (asked room).Closes := by
  rintro ⟨answer, hanswer, -⟩
  cases hanswer

theorem not_closes_noted (note : Note) : ¬ (noted note).Closes := by
  rintro ⟨answer, hanswer, -⟩
  cases hanswer

theorem heeded_append
    {first second : List Event} (hopen : ∀ event ∈ first, ¬ event.Closes)
    (h : second.Pairwise Heeded) : (first ++ second).Pairwise Heeded := by
  rw [List.pairwise_append]
  refine ⟨?_, h, ?_⟩
  · apply List.Pairwise.imp_of_mem _ (List.pairwise_of_forall (fun _ _ => trivial))
    intro event later hmem _ _ hcloses
    exact absurd hcloses (hopen event hmem)
  · intro event hmem later _ hcloses
    exact absurd hcloses (hopen event hmem)

end Event

namespace Pull

open Event

theorem not_closes_events
    {pull : Pull} (h : ¬ pull.answer.Closes) (room : Nat) :
    ∀ event ∈ pull.events room, ¬ event.Closes := by
  intro event hmem
  rcases List.mem_append.1 hmem with hasked | hanswered
  · rw [List.eq_of_mem_replicate hasked]
    exact not_closes_asked room
  · rw [List.mem_singleton.1 hanswered]
    rintro ⟨answer, hanswer, hcloses⟩
    cases hanswer
    exact h hcloses

/-- No request follows an answer, but only notes. -/
theorem heeded_events (pull : Pull) (room : Nat) (notes : List Note) :
    (pull.events room ++ notes.map Event.noted).Pairwise Heeded := by
  rw [events, List.append_assoc]
  apply heeded_append
  · intro event hasked
    rw [List.eq_of_mem_replicate hasked]
    exact not_closes_asked room
  · rw [List.singleton_append, List.pairwise_cons]
    constructor
    · intro later hmem _ room' hasked
      obtain ⟨note, -, rfl⟩ := List.mem_map.1 hmem
      cases hasked
    · rw [← List.append_nil (notes.map Event.noted)]
      apply heeded_append
      · intro event hmem
        obtain ⟨note, -, rfl⟩ := List.mem_map.1 hmem
        exact not_closes_noted note
      · exact .nil

end Pull

/-- After the pull of a chunk there is a source that may be asked again. -/
def Fill.Open (fill : Fill) : Prop :=
  ∃ chunk rest, fill.outcome = .ok (chunk, some rest)

namespace Source

open Event

theorem not_closes_vain
    {pull : Pull} (h : pull.answer = .filled [] false) (room : Nat) (note : Note) (empties : Nat) :
    ∀ event ∈ pull.events room ++ [.noted note] ++ retryNotes empties, ¬ event.Closes := by
  have hopen : ¬ pull.answer.Closes := by simp [h, Answer.Closes]
  intro event hmem
  simp only [List.mem_append, List.mem_singleton] at hmem
  rcases hmem with (hpull | rfl) | hretry
  · exact Pull.not_closes_events hopen room event hpull
  · exact not_closes_noted note
  · rw [retryNotes] at hretry
    split at hretry
    · rw [List.mem_singleton.1 hretry]
      exact not_closes_noted _
    · cases hretry

/-- As long as there is a source to be asked again, nothing has closed it. -/
theorem not_closes_fill
    {config : Config} {empties : Nat} {source : Source} (h : (source.fill config empties).Open) :
    ∀ event ∈ (source.fill config empties).events, ¬ event.Closes := by
  fun_induction fill config empties source with
  | case1 =>
      obtain ⟨chunk, rest, houtcome⟩ := h
      cases houtcome
  | case2 =>
      obtain ⟨chunk, rest, houtcome⟩ := h
      cases houtcome
  | case3 =>
      obtain ⟨chunk, rest, houtcome⟩ := h
      cases houtcome
  | case4 empties source hanswer hlt later ih =>
      intro event hmem
      rcases List.mem_append.1 hmem with hvain | hlater
      · exact not_closes_vain hanswer _ _ _ event hvain
      · exact ih h event hlater
  | case5 empties source b bytes hanswer =>
      have hdata : ¬ (source.pull config.room).answer.Closes := by simp [hanswer, Answer.Closes]
      intro event hmem
      rcases List.mem_append.1 hmem with hpull | hnote
      · exact Pull.not_closes_events hdata _ event hpull
      · rw [List.mem_singleton.1 hnote]
        exact not_closes_noted _

theorem heeded_fill (config : Config) (empties : Nat) (source : Source) :
    (source.fill config empties).events.Pairwise Heeded := by
  fun_induction fill config empties source with
  | case1 empties source claimed hanswer =>
      simpa using Pull.heeded_events (source.pull config.room) config.room []
  | case2 empties source failure hanswer => exact Pull.heeded_events _ _ [.failed failure]
  | case3 empties source bytes hanswer =>
      exact Pull.heeded_events _ _ [.pulled bytes.length config.room, .exhausted]
  | case4 empties source hanswer hlt later ih =>
      exact heeded_append (not_closes_vain hanswer _ _ _) ih
  | case5 empties source b bytes hanswer =>
      exact Pull.heeded_events _ _ [.pulled (b :: bytes).length config.room]

/-! ## All rounds of a source -/

theorem weight_lt_of_fill
    {config : Config} {source : Source} {chunk : Chunk} {rest : Source}
    (h : (source.fill config 0).outcome = .ok (chunk, some rest)) :
    rest.weight config.room < source.weight config.room := by
  have hle := pending_fill h
  have hpos := size_pos_of_fill h
  simp only [pending] at hle
  omega

/-- The pulls of all chunks, one after the other until the source is closed. -/
def fills (config : Config) (source : Source) : List Fill :=
  match h : (source.fill config 0).outcome with
  | .ok (_, some rest) =>
    have := weight_lt_of_fill h
    source.fill config 0 :: rest.fills config
  | _ => [source.fill config 0]
termination_by source.weight config.room

theorem fills_eq
    {config : Config} {source : Source} {chunk : Chunk} {rest : Option Source}
    (h : (source.fill config 0).outcome = .ok (chunk, rest)) :
    source.fills config =
      source.fill config 0 :: (rest.map (·.fills config)).getD [] := by
  rw [fills]
  cases rest with
  | none =>
      split
      · next hsome =>
        rw [h] at hsome
        cases hsome
      · rfl
  | some rest =>
      split
      · next hsome =>
        rw [h] at hsome
        cases hsome
        rfl
      · next hnone => exact absurd h (hnone _ _)

theorem fills_eq_of_error
    {config : Config} {source : Source} {fault : Fault}
    (h : (source.fill config 0).outcome = .error fault) :
    source.fills config = [source.fill config 0] := by
  rw [fills]
  split
  · next hsome =>
    rw [h] at hsome
    cases hsome
  · rfl

theorem exists_of_mem_fills
    {config : Config} {source : Source} {fill : Fill} (h : fill ∈ source.fills config) :
    ∃ source' : Source, fill = source'.fill config 0 := by
  fun_induction fills config source with
  | case1 source chunk rest houtcome hlt ih =>
      rcases List.mem_cons.1 h with rfl | hmem
      · exact ⟨source, rfl⟩
      · exact ih hmem
  | case2 source hclosed =>
      rw [List.mem_singleton.1 h]
      exact ⟨source, rfl⟩

/-- Once the source is closed, nothing is asked of it. -/
theorem heeded_fills (config : Config) (source : Source) :
    ((source.fills config).flatMap (·.events)).Pairwise Heeded := by
  fun_induction fills config source with
  | case1 source chunk rest houtcome hlt ih =>
      rw [List.flatMap_cons]
      exact heeded_append (not_closes_fill ⟨chunk, rest, houtcome⟩) ih
  | case2 source hclosed =>
      rw [List.flatMap_singleton]
      exact heeded_fill config 0 source

end Source

namespace Chain

/-- The pulls that are still to come. -/
def owed (c : Chain) : List Fill :=
  (c.source.map (·.fills c.config)).getD []

end Chain

namespace Feed

variable {feed feed' : Feed}

/-- Whatever is asked of a chain, the pulls that are made for it are those that come next. -/
theorem Asks.owed (h : feed.Asks feed') :
    ∃ made, feed.chain.owed = made ++ feed'.chain.owed ∧
      feed'.journal.toList = feed.journal.toList ++ made.flatMap (·.events) := by
  induction h with
  | refl => exact ⟨[], rfl, by simp⟩
  | @next feed₁ k _ ih =>
      obtain ⟨made, howed, hjournal⟩ := ih
      have hasked := asked_next feed₁ k
      generalize (Feed.next k).run feed₁ = result at hasked ⊢
      cases hasked with
      | present => exact ⟨made, howed, hjournal⟩
      | beyond => exact ⟨made, howed, hjournal⟩
      | last => exact ⟨made, howed, hjournal⟩
      | @dropped source fault _ hsource hfill =>
          refine ⟨made ++ [source.fill feed₁.chain.config 0], ?_, ?_⟩
          · rw [howed, Chain.owed, hsource, Option.map_some, Option.getD_some,
              Source.fills_eq_of_error hfill]
            simp [Chain.owed]
          · simp [hjournal]
      | @pulled source chunk rest _ hsource hfill =>
          refine ⟨made ++ [source.fill feed₁.chain.config 0], ?_, ?_⟩
          · rw [howed, Chain.owed, hsource, Option.map_some, Option.getD_some,
              Source.fills_eq hfill, List.append_assoc]
            rfl
          · simp [hjournal]

theorem Asks.eq_of_closed (h : feed.Asks feed') (hsource : feed.chain.source = none) :
    feed' = feed := by
  induction h with
  | refl => rfl
  | @next feed₁ k _ ih =>
      subst ih
      have hasked := asked_next feed₁ k
      generalize (Feed.next k).run feed₁ = result at hasked ⊢
      cases hasked with
      | present => rfl
      | beyond => rfl
      | last => rfl
      | dropped _ hsome _ => simp [hsource] at hsome
      | pulled _ hsome _ => simp [hsource] at hsome

/-! ## Reading to the end -/

theorem closed_of_following
    {k : Nat} {feed : Feed} (hk : k < feed.chain.chunks.size)
    (h : ∀ found, (following k feed).1 ≠ .ok (.ok found)) :
    (following k feed).2.chain.source = none := by
  fun_induction following k feed with
  | case1 k feed fault feed₁ hnext =>
      cases asked_of_next hnext with
      | beyond hbeyond => omega
      | dropped => rfl
  | case2 k feed feed₁ hnext =>
      cases asked_of_next hnext with
      | last _ hsource => exact hsource
  | case3 k feed chunk feed₁ hnext hlt hempty ih =>
      refine ih ?_ h
      cases asked_of_next hnext with
      | present hchunk => exact (Array.getElem?_eq_some_iff.1 hchunk).1
      | pulled hlast _ _ =>
          rw [Chain.push, Array.size_push]
          omega
  | case4 k feed chunk feed₁ hnext hlt hempty => exact absurd rfl (h _)

theorem closed_of_byte
    {feed : Feed} {place : Place} {offset : Nat} (hsound : feed.chain.Sound)
    (hmarks : feed.chain.Marks place offset)
    (h : ∀ found, ((byte place).run feed).1 ≠ .ok (.ok found)) :
    ((byte place).run feed).2.chain.source = none := by
  obtain ⟨chunk, hchunk, hindex⟩ := hmarks.within
  have hk := (Array.getElem?_eq_some_iff.1 hchunk).1
  simp only [byte, hchunk] at h ⊢
  split at h
  · exact absurd rfl (h _)
  · next hend =>
    rw [if_neg (by omega)] at h
    rw [dif_neg hend, if_neg (by omega)]
    have hreaches := reaches_following hsound hk
    have hclosed := closed_of_following hk
    generalize following place.chunk feed = result at hreaches hclosed h ⊢
    cases hreaches with
    | chunk _ _ hpos _ =>
        simp only [Array.getElem?_eq_getElem hpos] at h
        exact absurd rfl (h _)
    | halt => exact hclosed (by simp)
    | fault => exact hclosed (by simp)

end Feed
end StreamParse
