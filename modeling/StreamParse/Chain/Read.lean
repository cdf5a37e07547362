import StreamParse.Chain.Basic
import StreamParse.Utf8

/-!
# Reading from a chain

A place names a chunk and an index into it.  A read gives the byte or the scalar value that begins
at a place and the place after it, which always lies in the chunk that holds the last byte read.
So the end of one chunk and the beginning of the next are different places, but a place that was
read up to is always the former.

Reads ask for a chunk only where the bytes at hand leave them undecided: none at all, or the
beginning of a sequence.
-/

namespace StreamParse

/-- A byte of a chain, or the end of one of its chunks. -/
structure Place where
  chunk : Nat
  index : Nat
  deriving DecidableEq

/-- Why nothing could be read at a place. -/
inductive Halt where
  /-- The input ends there. -/
  | ended
  /-- No scalar value is encoded there. -/
  | malformed
  /-- The source failed there. -/
  | failed (failure : SourceFailure)
  deriving DecidableEq

namespace Chain

/-- Why reading stops after chunk `k`, the last one: the failure it tells, or else `otherwise`. -/
def haltAfter (c : Chain) (k : Nat) (otherwise : Halt) : Halt :=
  match c.chunks[k]?.bind (·.failure) with
  | some failure => .failed failure
  | none => otherwise

/-- The bytes from chunk `k` on, as far as they were pulled. -/
def sizeFrom (c : Chain) (k : Nat) : Nat :=
  ((c.chunks.toList.drop k).flatMap (·.bytes.toList)).length

/-- The bytes after a place, those at hand and at most those still to come. -/
def remaining (c : Chain) (place : Place) : Nat :=
  c.sizeFrom place.chunk - place.index + c.pending

theorem sizeFrom_of_getElem? {c : Chain} {k : Nat} {chunk : Chunk}
    (h : c.chunks[k]? = some chunk) :
    c.sizeFrom k = chunk.bytes.size + c.sizeFrom (k + 1) := by
  obtain ⟨hk, rfl⟩ := Array.getElem?_eq_some_iff.1 h
  have hk' : k < c.chunks.toList.length := by simpa using hk
  simp only [sizeFrom]
  rw [List.drop_eq_getElem_cons hk']
  simp

end Chain

namespace Feed

/-- The first chunk after chunk `k` that is not empty, with its number. -/
def following (k : Nat) (feed : Feed) : Except Fault (Except Halt (Nat × Chunk)) × Feed :=
  match h : (next k).run feed with
  | (.error fault, feed) => (.error fault, feed)
  | (.ok none, feed) => (.ok (.error (feed.chain.haltAfter k .ended)), feed)
  | (.ok (some chunk), feed) =>
    have := distance_next h
    if chunk.bytes.isEmpty then following (k + 1) feed
    else (.ok (.ok (k + 1, chunk)), feed)
termination_by feed.distance k

/-- Reads the byte at a place. -/
def byte (place : Place) : Action Feed (Except Halt (UInt8 × Place)) :=
  ⟨fun feed =>
    match feed.chain.chunks[place.chunk]? with
    | none => (.error (.inconsistent .chunkMissing), feed)
    | some chunk =>
      if h : place.index < chunk.bytes.size then
        (.ok (.ok (chunk.bytes[place.index], ⟨place.chunk, place.index + 1⟩)), feed)
      else if chunk.bytes.size < place.index then
        (.error (.inconsistent .beyondChunk), feed)
      else
        match following place.chunk feed with
        | (.error fault, feed) => (.error fault, feed)
        | (.ok (.error halt), feed) => (.ok (.error halt), feed)
        | (.ok (.ok (k, chunk)), feed) =>
          match chunk.bytes[0]? with
          | none => (.error (.inconsistent .chunkEmpty), feed)
          | some b => (.ok (.ok (b, ⟨k, 1⟩)), feed)⟩

/-- Goes on with a sequence of which `window` is the beginning.  The bytes of `window` from number
`earlier` on stand in `chunk`, which is chunk `k`, from index `start` on. -/
def sequenceFrom (k : Nat) (chunk : Chunk) (start earlier : Nat) (window : List UInt8)
    (feed : Feed) : Except Fault (Except Halt (Char × Place)) × Feed :=
  match Utf8.classify window with
  | .malformed => (.ok (.error .malformed), feed)
  | .scalar c =>
    let stop := start + (c.utf8Size - earlier)
    if earlier < c.utf8Size ∧ stop ≤ chunk.bytes.size then (.ok (.ok (c, ⟨k, stop⟩)), feed)
    else (.error (.inconsistent .sequenceMisplaced), feed)
  | .incomplete =>
    if Utf8.maxWidth ≤ window.length then (.error (.inconsistent .windowFull), feed)
    else
      match h : (next k).run feed with
      | (.error fault, feed) => (.error fault, feed)
      | (.ok none, feed) =>
        let otherwise := if window.isEmpty then .ended else .malformed
        (.ok (.error (feed.chain.haltAfter k otherwise)), feed)
      | (.ok (some chunk), feed) =>
        have := distance_next h
        let more := (chunk.bytes.extract 0 (Utf8.maxWidth - window.length)).toList
        sequenceFrom (k + 1) chunk 0 window.length (window ++ more) feed
termination_by feed.distance k

/-- Reads the scalar value at a place. -/
def rune (place : Place) : Action Feed (Except Halt (Char × Place)) :=
  ⟨fun feed =>
    match feed.chain.chunks[place.chunk]? with
    | none => (.error (.inconsistent .chunkMissing), feed)
    | some chunk =>
      if chunk.bytes.size < place.index then (.error (.inconsistent .beyondChunk), feed)
      else
        let window := (chunk.bytes.extract place.index (place.index + Utf8.maxWidth)).toList
        sequenceFrom place.chunk chunk place.index 0 window feed⟩

/-! ### What a read uses up -/

/-- A chunk comes out of what may still be pulled, or was there. -/
theorem sizeFrom_next {k : Nat} {feed feed' : Feed} {chunk : Chunk}
    (h : (next k).run feed = (.ok (some chunk), feed')) :
    feed'.chain.chunks[k + 1]? = some chunk ∧
      feed'.chain.sizeFrom (k + 1) + feed'.chain.pending ≤
        feed.chain.sizeFrom (k + 1) + feed.chain.pending := by
  obtain ⟨⟨chunks, source, config⟩, journal⟩ := feed
  simp only [next] at h
  split at h
  · next hk =>
    obtain ⟨rfl, rfl⟩ := by simpa using h
    exact ⟨hk, Nat.le_refl _⟩
  · next hk =>
    split at h
    · simp at h
    · next hsize =>
      have hlast : k + 1 = chunks.size := by
        have := Array.getElem?_eq_none_iff.1 hk
        omega
      split at h
      · simp at h
      · next _ given =>
        split at h
        · simp at h
        · next chunk' rest hfill =>
          obtain ⟨rfl, rfl⟩ := by simpa using h
          have hle := Source.pending_fill hfill
          constructor
          · simp [hlast]
          · have hnew : ((chunks.push chunk').toList.drop (k + 1)) = [chunk'] := by
              simp [hlast]
            have hold : chunks.toList.drop (k + 1) = [] := by
              simp [hlast]
            simp only [Chain.sizeFrom, Chain.pending, hnew, hold]
            simpa [Source.pending] using hle

theorem sizeFrom_following {k k' : Nat} {feed feed' : Feed} {chunk : Chunk}
    (h : following k feed = (.ok (.ok (k', chunk)), feed')) :
    feed'.chain.chunks[k']? = some chunk ∧
      feed'.chain.sizeFrom k' + feed'.chain.pending ≤
        feed.chain.sizeFrom (k + 1) + feed.chain.pending := by
  fun_induction following k feed with
  | case1 => simp at h
  | case2 => simp at h
  | case3 k feed chunk₁ feed₁ hnext hlt hempty ih =>
    obtain ⟨hchunk, hsize⟩ := ih h
    obtain ⟨hchunk₁, hsize₁⟩ := sizeFrom_next hnext
    have := Chain.sizeFrom_of_getElem? hchunk₁
    exact ⟨hchunk, by omega⟩
  | case4 k feed chunk₁ feed₁ hnext hlt hempty =>
    obtain ⟨⟨rfl, rfl⟩, rfl⟩ := by simpa using h
    exact sizeFrom_next hnext

theorem remaining_byte {place place' : Place} {feed feed' : Feed} {b : UInt8}
    (h : (byte place).run feed = (.ok (.ok (b, place')), feed')) :
    feed'.chain.remaining place' < feed.chain.remaining place := by
  simp only [byte] at h
  split at h
  · simp at h
  · next chunk hchunk =>
    have hfrom := Chain.sizeFrom_of_getElem? hchunk
    split at h
    · next hindex =>
      obtain ⟨⟨-, rfl⟩, rfl⟩ := by simpa using h
      simp only [Chain.remaining]
      omega
    · split at h
      · simp at h
      · split at h
        · simp at h
        · simp at h
        · next k chunk' feed₁ hfollowing =>
          split at h
          · simp at h
          · next b' hb =>
            obtain ⟨⟨-, rfl⟩, rfl⟩ := by simpa using h
            obtain ⟨hchunk', hsize⟩ := sizeFrom_following hfollowing
            have hfrom' := Chain.sizeFrom_of_getElem? hchunk'
            have := (Array.getElem?_eq_some_iff.1 hb).1
            simp only [Chain.remaining]
            omega

/-- The bytes of a sequence that stand in the last chunk are no longer to come. -/
theorem remaining_sequenceFrom {k start earlier : Nat} {chunk : Chunk} {window : List UInt8}
    {feed feed' : Feed} {c : Char} {place' : Place}
    (hchunk : feed.chain.chunks[k]? = some chunk)
    (hstart : start ≤ chunk.bytes.size)
    (h : sequenceFrom k chunk start earlier window feed = (.ok (.ok (c, place')), feed')) :
    feed'.chain.remaining place' < feed.chain.remaining ⟨k, start⟩ := by
  fun_induction sequenceFrom k chunk start earlier window feed with
  | case1 => simp at h
  | case2 k chunk start earlier window feed c' hclassify stop hfits =>
    obtain ⟨⟨-, rfl⟩, rfl⟩ := by simpa using h
    have := Chain.sizeFrom_of_getElem? hchunk
    simp only [Chain.remaining]
    omega
  | case3 => simp at h
  | case4 => simp at h
  | case5 => simp at h
  | case6 => simp at h
  | case7 k chunk start earlier window feed hclassify hlength chunk₁ feed₁ hnext hlt more ih =>
    obtain ⟨hchunk₁, hsize⟩ := sizeFrom_next hnext
    have hrec := ih hchunk₁ (Nat.zero_le _) h
    have := Chain.sizeFrom_of_getElem? hchunk
    simp only [Chain.remaining] at hrec ⊢
    omega

theorem remaining_rune {place place' : Place} {feed feed' : Feed} {c : Char}
    (h : (rune place).run feed = (.ok (.ok (c, place')), feed')) :
    feed'.chain.remaining place' < feed.chain.remaining place := by
  simp only [rune] at h
  split at h
  · simp at h
  · next chunk hchunk =>
    split at h
    · simp at h
    · next hindex =>
      exact remaining_sequenceFrom hchunk (by omega) h

end Feed
end StreamParse
