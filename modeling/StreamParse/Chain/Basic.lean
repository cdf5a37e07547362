import StreamParse.Action
import StreamParse.Journal

/-!
# Chains of chunks

The input read so far is kept as a chain of chunks, and while more may follow, the chain also holds
its source.  Asking for the chunk after the last one requests it from the source, and from then on
it belongs to the chain: a chunk never changes and is requested once, however often it is read.

A chunk is pulled by as many requests as it takes to get an answer that means something.  Answers
without bytes that do not name the end are requests in vain; the others end the pull, and all but
one of them also end the chain.
-/

namespace StreamParse

/-- How much is requested at once.  Memory for that much is taken for granted: a size for which
there is none, and for which nothing could be pulled at all, is not told apart. -/
structure Config where
  chunkSize : Nat

namespace Config

/-- Requests are never for less than this. -/
def minimum : Nat := 8

instance : Inhabited Config := ⟨⟨1024⟩⟩

/-- The room of a request: the chunk size, raised to the minimum. -/
def room (config : Config) : Nat := max config.chunkSize minimum

theorem room_pos (config : Config) : 0 < config.room := by
  unfold room minimum
  omega

end Config

/-- A piece of the input.  Where pulling failed, the chain ends with an empty chunk that tells the
failure. -/
structure Chunk where
  bytes : Array UInt8
  failure : Option SourceFailure

def Chunk.failed (failure : SourceFailure) : Chunk := ⟨#[], some failure⟩

def Chunk.filled (bytes : List UInt8) : Chunk := ⟨bytes.toArray, none⟩

/-- How the pull of one chunk went. -/
structure Fill where
  /-- What it leaves in the journal. -/
  events : List Event
  /-- The chunk, with the source if more may follow. -/
  outcome : Except Fault (Chunk × Option Source)

namespace Source

/-- The note on a request in vain, made whenever their number doubles. -/
def retryNotes (empties : Nat) : List Event :=
  if empties.isPowerOfTwo then [.noted (.retrying empties)] else []

/-- Pulls one chunk, after `empties` requests in vain. -/
def fill (config : Config) (empties : Nat) (source : Source) : Fill :=
  match h : (source.pull config.room).answer with
  | .overclaimed _ =>
    ⟨(source.pull config.room).events config.room, .error (.overclaimed source.conduct)⟩
  | .failed failure =>
    ⟨(source.pull config.room).events config.room ++ [.noted (.failed failure)],
      .ok (.failed failure, none)⟩
  | .filled bytes true =>
    ⟨(source.pull config.room).events config.room
        ++ [.noted (.pulled bytes.length config.room), .noted .exhausted],
      .ok (.filled bytes, none)⟩
  | .filled [] false =>
    have := weight_pull_nil config.room_pos h
    let later := fill config (empties + 1) (source.pull config.room).rest
    ⟨(source.pull config.room).events config.room
        ++ [.noted (.pulled 0 config.room)] ++ retryNotes (empties + 1) ++ later.events,
      later.outcome⟩
  | .filled (b :: bytes) false =>
    ⟨(source.pull config.room).events config.room
        ++ [.noted (.pulled (b :: bytes).length config.room)],
      .ok (.filled (b :: bytes), some (source.pull config.room).rest)⟩
termination_by source.weight config.room

/-- An upper bound on what may still come. -/
def pending (config : Config) : Option Source → Nat
  | none => 0
  | some source => source.weight config.room

/-- The bytes of a pulled chunk are taken off what may still come. -/
theorem pending_fill {config : Config} {empties : Nat} {source : Source} {chunk : Chunk}
    {rest : Option Source} (h : (source.fill config empties).outcome = .ok (chunk, rest)) :
    chunk.bytes.size + pending config rest ≤ source.weight config.room := by
  fun_induction fill config empties source with
  | case1 => simp at h
  | case2 empties source failure hanswer =>
    obtain ⟨rfl, rfl⟩ := by simpa using h
    simp [Chunk.failed, pending]
  | case3 empties source bytes hanswer =>
    obtain ⟨rfl, rfl⟩ := by simpa using h
    have := weight_pull hanswer
    simp [Chunk.filled, pending]
    omega
  | case4 empties source hanswer hlt later ih =>
    have := ih h
    omega
  | case5 empties source b bytes hanswer =>
    obtain ⟨rfl, rfl⟩ := by simpa using h
    have := weight_pull hanswer
    simp [Chunk.filled, pending] at this ⊢
    omega

theorem size_pos_of_fill {config : Config} {empties : Nat} {source : Source} {chunk : Chunk}
    {rest : Source} (h : (source.fill config empties).outcome = .ok (chunk, some rest)) :
    0 < chunk.bytes.size := by
  fun_induction fill config empties source with
  | case1 => simp at h
  | case2 => simp at h
  | case3 => simp at h
  | case4 empties source hanswer hlt later ih => exact ih h
  | case5 empties source b bytes hanswer =>
    obtain ⟨rfl, -⟩ := by simpa using h
    simp [Chunk.filled]

end Source

/-- The chunks of an input read so far, and the source of the rest while there may be one. -/
structure Chain where
  chunks : Array Chunk
  source : Option Source
  config : Config

namespace Chain

/-- The chain of an input that is all there. -/
def complete (bytes : List UInt8) : Chain := ⟨#[.filled bytes], none, default⟩

/-- The chain of an input that a source will hand out.  It begins with an empty chunk, and nothing
is requested yet. -/
def streaming (source : Source) (config : Config) : Chain := ⟨#[.filled []], some source, config⟩

/-- An upper bound on what may still be pulled. -/
def pending (c : Chain) : Nat := Source.pending c.config c.source

end Chain

/-- A chain with the journal that its requests are written to. -/
structure Feed where
  chain : Chain
  journal : Journal

namespace Feed

/-- The chunk after chunk `k`, pulled if it is not there yet.  There is none at the end of the
chain.  A source that overclaims is not asked again. -/
def next (k : Nat) : Action Feed (Option Chunk) :=
  ⟨fun ⟨chain, journal⟩ =>
    match chain.chunks[k + 1]? with
    | some chunk => (.ok (some chunk), ⟨chain, journal⟩)
    | none =>
      if chain.chunks.size ≤ k then (.error (.inconsistent .chunkMissing), ⟨chain, journal⟩)
      else
        match chain.source with
        | none => (.ok none, ⟨chain, journal⟩)
        | some source =>
          let fill := source.fill chain.config 0
          let journal := journal ++ fill.events
          match fill.outcome with
          | .error fault => (.error fault, ⟨{ chain with source := none }, journal⟩)
          | .ok (chunk, rest) =>
            (.ok (some chunk),
              ⟨{ chain with chunks := chain.chunks.push chunk, source := rest }, journal⟩)⟩

/-- How far chunk `k` is from the end of the chain, at most. -/
def distance (feed : Feed) (k : Nat) : Nat :=
  feed.chain.chunks.size - k +
    match feed.chain.source with
    | none => 0
    | some source => 1 + source.weight feed.chain.config.room

/-- Every chunk brings the end of the chain nearer. -/
theorem distance_next {k : Nat} {feed feed' : Feed} {chunk : Chunk}
    (h : (next k).run feed = (.ok (some chunk), feed')) :
    feed'.distance (k + 1) < feed.distance k := by
  obtain ⟨⟨chunks, source, config⟩, journal⟩ := feed
  simp only [next] at h
  split at h
  · next hk =>
    obtain ⟨-, rfl⟩ := by simpa using h
    have := (Array.getElem?_eq_some_iff.1 hk).1
    simp only [distance] at *
    omega
  · next hk =>
    split at h
    · simp at h
    · next hsize =>
      have := Array.getElem?_eq_none_iff.1 hk
      split at h
      · simp at h
      · next _ given =>
        split at h
        · simp at h
        · next chunk' rest hfill =>
          obtain ⟨rfl, rfl⟩ := by simpa using h
          have hle := Source.pending_fill hfill
          cases rest with
          | none =>
            simp only [distance, Array.size_push] at *
            omega
          | some rest =>
            have := Source.size_pos_of_fill hfill
            simp [distance, Source.pending] at *
            omega

end Feed
end StreamParse
