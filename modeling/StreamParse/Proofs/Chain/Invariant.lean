import StreamParse.Proofs.Content

/-!
# The invariant of chains

A chain and its source together always make up the same content: pulling a chunk moves bytes from
the front of what is still to come to the end of what is there.  Along with this, an invariant says
where empty chunks and failures may stand, so that the last chunk tells how the input ends.
-/

namespace StreamParse

namespace Chain

/-- The bytes of the chunks before number `k`. -/
def offset (c : Chain) (k : Nat) : Nat :=
  ((c.chunks.toList.take k).flatMap (·.bytes.toList)).length

/-- What follows the chunks that are there. -/
def rest (c : Chain) : Content :=
  match c.chunks.back? with
  | none => ⟨[], .ended⟩
  | some chunk => chunk.following c.config c.source

/-- The input from chunk `k` on. -/
def inputFrom (c : Chain) (k : Nat) : List UInt8 :=
  (c.chunks.toList.drop k).flatMap (·.bytes.toList) ++ c.rest.bytes

/-- The content of the input: what is there and what follows. -/
def content (c : Chain) : Content :=
  c.rest.prepend (c.chunks.toList.flatMap (·.bytes.toList))

/-- What holds of every chain that was read from.  An empty chunk is the first one or closes the
chain, and only the last chunk of a chain without source may tell a failure. -/
structure Sound (c : Chain) : Prop where
  nonempty : 0 < c.chunks.size
  empty_last : ∀ {k : Nat} {chunk : Chunk}, c.chunks[k]? = some chunk → chunk.bytes.size = 0 →
    k = 0 ∨ k + 1 = c.chunks.size ∧ c.source = none
  failure_last : ∀ {k : Nat} {chunk : Chunk}, c.chunks[k]? = some chunk → chunk.failure ≠ none →
    k + 1 = c.chunks.size ∧ c.source = none ∧ chunk.bytes.size = 0

/-- A place that reading can lead to, with the number of bytes before it.  The beginning of a chunk
is no such place, unless the chunk is the first one: there the end of the chunk before it is. -/
structure Marks (c : Chain) (place : Place) (offset : Nat) : Prop where
  within : ∃ chunk, c.chunks[place.chunk]? = some chunk ∧ place.index ≤ chunk.bytes.size
  offset_eq : offset = c.offset place.chunk + place.index
  canonical : place.index = 0 → place.chunk = 0

/-- A later form of a chain: chunks were added, and the input is the same. -/
structure Extends (c c' : Chain) : Prop where
  sound : c'.Sound
  chunks : c.chunks.toList <+: c'.chunks.toList
  config : c'.config = c.config
  content : c'.content = c.content

/-- A later form of a chain whose source overclaimed and was dropped. -/
structure Cut (c c' : Chain) (conduct : Conduct) : Prop where
  sound : c'.Sound
  chunks : c.chunks.toList <+: c'.chunks.toList
  config : c'.config = c.config
  overclaimed : c.content.ending = .overclaimed conduct
  content : c'.content = c.content.settled

/-! ## Chunks and the input from them on -/

theorem content_bytes_eq (c : Chain) (k : Nat) :
    c.content.bytes =
      (c.chunks.toList.take k).flatMap (·.bytes.toList) ++ c.inputFrom k := by
  rw [inputFrom, ← List.append_assoc, ← List.flatMap_append, List.take_append_drop]
  rfl

theorem drop_content_bytes (c : Chain) (k : Nat) :
    c.content.bytes.drop (c.offset k) = c.inputFrom k := by
  rw [content_bytes_eq c k, offset, List.drop_left]

theorem inputFrom_of_getElem?
    {c : Chain} {k : Nat} {chunk : Chunk} (h : c.chunks[k]? = some chunk) :
    c.inputFrom k = chunk.bytes.toList ++ c.inputFrom (k + 1) := by
  obtain ⟨hk, rfl⟩ := Array.getElem?_eq_some_iff.1 h
  have hk' : k < c.chunks.toList.length := by simpa using hk
  rw [inputFrom, inputFrom, List.drop_eq_getElem_cons hk']
  simp

theorem offset_succ
    {c : Chain} {k : Nat} {chunk : Chunk} (h : c.chunks[k]? = some chunk) :
    c.offset (k + 1) = c.offset k + chunk.bytes.size := by
  obtain ⟨hk, rfl⟩ := Array.getElem?_eq_some_iff.1 h
  have hk' : k < c.chunks.toList.length := by simpa using hk
  rw [offset, offset, List.take_add_one, List.getElem?_eq_getElem hk']
  simp

theorem offset_le (c : Chain) (k : Nat) : c.offset k ≤ c.content.bytes.length := by
  rw [content_bytes_eq c k, List.length_append, offset]
  omega

theorem inputFrom_size (c : Chain) : c.inputFrom c.chunks.size = c.rest.bytes := by
  rw [inputFrom, ← Array.length_toList, List.drop_length]
  rfl

theorem rest_of_last
    {c : Chain} {k : Nat} {chunk : Chunk}
    (hlast : k + 1 = c.chunks.size) (h : c.chunks[k]? = some chunk) :
    c.rest = chunk.following c.config c.source := by
  have hback : c.chunks.back? = some chunk := by
    rw [Array.back?_eq_getElem?, ← hlast]
    exact h
  simp only [rest, hback]

/-! ## Later forms of a chain -/

section

variable {c c' c'' : Chain}

theorem getElem?_of_isPrefix
    (hchunks : c.chunks.toList <+: c'.chunks.toList) {k : Nat} {chunk : Chunk}
    (h : c.chunks[k]? = some chunk) : c'.chunks[k]? = some chunk := by
  obtain ⟨hk, rfl⟩ := Array.getElem?_eq_some_iff.1 h
  rw [← Array.getElem?_toList, ← Array.getElem_toList]
  exact List.prefix_iff_getElem?.1 hchunks k (by simpa using hk)

theorem offset_of_isPrefix
    (hchunks : c.chunks.toList <+: c'.chunks.toList) {k : Nat} (hk : k ≤ c.chunks.size) :
    c'.offset k = c.offset k := by
  obtain ⟨more, hmore⟩ := hchunks
  rw [offset, offset, ← hmore, List.take_append_of_le_length (by simpa using hk)]

theorem marks_of_isPrefix
    (hchunks : c.chunks.toList <+: c'.chunks.toList) {place : Place} {offset : Nat}
    (h : c.Marks place offset) : c'.Marks place offset := by
  obtain ⟨⟨chunk, hchunk, hindex⟩, hoffset, hcanonical⟩ := h
  have hlt := (Array.getElem?_eq_some_iff.1 hchunk).1
  refine ⟨⟨chunk, getElem?_of_isPrefix hchunks hchunk, hindex⟩, ?_, hcanonical⟩
  rw [hoffset, offset_of_isPrefix hchunks (by omega)]

theorem Extends.refl (h : c.Sound) : c.Extends c :=
  ⟨h, List.prefix_refl _, rfl, rfl⟩

theorem Extends.trans (h : c.Extends c') (h' : c'.Extends c'') : c.Extends c'' :=
  ⟨h'.sound, h.chunks.trans h'.chunks, h'.config.trans h.config, h'.content.trans h.content⟩

theorem Extends.cut {conduct : Conduct} (h : c.Extends c') (h' : c'.Cut c'' conduct) :
    c.Cut c'' conduct :=
  ⟨h'.sound, h.chunks.trans h'.chunks, h'.config.trans h.config,
    h.content ▸ h'.overclaimed, h.content ▸ h'.content⟩

/-- Where the chunks end, the bytes of the content end as well, unless the source has more. -/
theorem Extends.inputFrom_eq (h : c.Extends c') {k : Nat} (hk : k ≤ c.chunks.size) :
    c'.inputFrom k = c.inputFrom k := by
  rw [← drop_content_bytes, ← drop_content_bytes, h.content, offset_of_isPrefix h.chunks hk]

end

/-! ## Pulling a chunk -/

def push (c : Chain) (chunk : Chunk) (source : Option Source) : Chain :=
  { c with chunks := c.chunks.push chunk, source }

theorem Sound.failure_eq_none
    {c : Chain} (hsound : c.Sound) (hsource : c.source ≠ none)
    {k : Nat} {chunk : Chunk} (h : c.chunks[k]? = some chunk) : chunk.failure = none := by
  by_contra hfailure
  exact hsource (hsound.failure_last h hfailure).2.1

theorem rest_of_source
    {c : Chain} (hsound : c.Sound) {source : Source} (hsource : c.source = some source) :
    c.rest = source.content c.config.room := by
  have hlt : c.chunks.size - 1 < c.chunks.size := by
    have := hsound.nonempty
    omega
  rw [rest_of_last (k := c.chunks.size - 1) (by omega) (Array.getElem?_eq_getElem hlt), hsource]
  rfl

theorem content_push
    {c : Chain} (hsound : c.Sound) {source : Source} (hsource : c.source = some source)
    {chunk : Chunk} {rest : Option Source}
    (hfill : (source.fill c.config 0).outcome = .ok (chunk, rest)) :
    (c.push chunk rest).content = c.content := by
  have hrest : (c.push chunk rest).rest = chunk.following c.config rest := by
    simp [Chain.rest, push]
  rw [content, content, hrest, rest_of_source hsound hsource, Source.content_of_fill hfill,
    Content.prepend_prepend]
  simp [push]

theorem sound_push
    {c : Chain} (hsound : c.Sound) {source : Source} (hsource : c.source = some source)
    {chunk : Chunk} {rest : Option Source}
    (hfill : (source.fill c.config 0).outcome = .ok (chunk, rest)) :
    (c.push chunk rest).Sound := by
  have hsome : c.source ≠ none := by simp [hsource]
  constructor
  · simp [push]
  · intro k chunk' hk hempty
    simp only [push, Array.getElem?_push, Array.size_push] at hk ⊢
    split at hk
    · next hlast =>
      cases hk
      cases rest with
      | none => exact Or.inr ⟨by omega, rfl⟩
      | some rest =>
          have := Source.size_pos_of_fill hfill
          omega
    · rcases hsound.empty_last hk hempty with hzero | ⟨-, hnone⟩
      · exact Or.inl hzero
      · exact absurd hnone hsome
  · intro k chunk' hk hfailure
    simp only [push, Array.getElem?_push, Array.size_push] at hk ⊢
    split at hk
    · next hlast =>
      cases hk
      obtain ⟨hnone, hempty⟩ := Source.failure_of_fill hfill hfailure
      exact ⟨by omega, hnone, hempty⟩
    · exact absurd (hsound.failure_eq_none hsome hk) hfailure

theorem extends_push
    {c : Chain} (hsound : c.Sound) {source : Source} (hsource : c.source = some source)
    {chunk : Chunk} {rest : Option Source}
    (hfill : (source.fill c.config 0).outcome = .ok (chunk, rest)) :
    c.Extends (c.push chunk rest) := by
  refine ⟨sound_push hsound hsource hfill, ?_, rfl, content_push hsound hsource hfill⟩
  simp [push]

/-- Dropping a source that overclaims leaves the chain to end where it stands. -/
theorem cut_drop
    {c : Chain} (hsound : c.Sound) {source : Source} (hsource : c.source = some source)
    {fault : Fault} (hfill : (source.fill c.config 0).outcome = .error fault) :
    c.Cut { c with source := none } source.conduct := by
  obtain ⟨-, hcontent⟩ := Source.content_of_fill_error hfill
  have hsome : c.source ≠ none := by simp [hsource]
  have hrest := rest_of_source hsound hsource
  rw [hcontent] at hrest
  have hover : c.content.ending = .overclaimed source.conduct := by
    rw [content, hrest]
    rfl
  have hdropped : ({ c with source := none } : Chain).rest = ⟨[], .ended⟩ := by
    have hlt : c.chunks.size - 1 < c.chunks.size := by
      have := hsound.nonempty
      omega
    have hlast := Array.getElem?_eq_getElem hlt
    rw [rest_of_last (c := { c with source := none }) (k := c.chunks.size - 1)
      (by simp only; omega) hlast]
    simp [Chunk.following, Chunk.ending, hsound.failure_eq_none hsome hlast]
  refine ⟨⟨hsound.nonempty, ?_, ?_⟩, List.prefix_refl _, rfl, hover, ?_⟩
  · intro k chunk hk hempty
    rcases hsound.empty_last hk hempty with hzero | ⟨-, hnone⟩
    · exact Or.inl hzero
    · exact absurd hnone hsome
  · intro k chunk hk hfailure
    exact absurd (hsound.failure_eq_none hsome hk) hfailure
  · rw [content, content, hdropped, hrest]
    rfl

end Chain

namespace Feed

open Chain

/-- What asking for the chunk after chunk `k` can come to: a chunk, the end of a chain without
source, or the fault of a source that overclaims where its content is used up. -/
inductive Advances (feed : Feed) (k : Nat) : Except Fault (Option Chunk) × Feed → Prop
  | chunk {chunk : Chunk} {feed' : Feed} :
    feed.chain.Extends feed'.chain → feed'.chain.chunks[k + 1]? = some chunk →
      Advances feed k (.ok (some chunk), feed')
  | last :
    k + 1 = feed.chain.chunks.size → feed.chain.source = none →
      Advances feed k (.ok none, feed)
  | fault {conduct : Conduct} {feed' : Feed} :
    feed.chain.Cut feed'.chain conduct → feed.chain.inputFrom (k + 1) = [] →
      Advances feed k (.error (.overclaimed conduct), feed')

theorem advances_next
    {feed : Feed} {k : Nat} (hsound : feed.chain.Sound) (hk : k < feed.chain.chunks.size) :
    feed.Advances k ((next k).run feed) := by
  obtain ⟨chain, journal⟩ := feed
  simp only [next]
  cases hnext : chain.chunks[k + 1]? with
  | some chunk => exact .chunk (Extends.refl hsound) hnext
  | none =>
      have hlast : k + 1 = chain.chunks.size := by
        have := Array.getElem?_eq_none_iff.1 hnext
        simp only at hk
        omega
      simp only [if_neg (by omega : ¬ chain.chunks.size ≤ k)]
      cases hsource : chain.source with
      | none => exact .last hlast hsource
      | some source =>
          cases hfill : (source.fill chain.config 0).outcome with
          | error fault =>
              obtain ⟨rfl, hcontent⟩ := Source.content_of_fill_error hfill
              simp only [hfill]
              refine .fault (cut_drop hsound hsource hfill) ?_
              rw [hlast, inputFrom_size, rest_of_source hsound hsource, hcontent]
          | ok filled =>
              obtain ⟨chunk, rest⟩ := filled
              simp only [hfill]
              refine .chunk (extends_push hsound hsource hfill) ?_
              simp [hlast]

theorem advances_of_next
    {feed : Feed} {k : Nat} (hsound : feed.chain.Sound) (hk : k < feed.chain.chunks.size)
    {result : Except Fault (Option Chunk) × Feed} (hnext : (next k).run feed = result) :
    feed.Advances k result := by
  rw [← hnext]
  exact advances_next hsound hk

end Feed
end StreamParse
