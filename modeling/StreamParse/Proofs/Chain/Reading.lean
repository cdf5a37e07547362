import StreamParse.Proofs.Chain.Invariant
import StreamParse.Proofs.Utf8

/-!
# Reading is reading the content

What a read finds at a place is decided by the content of the input and by the number of bytes
before that place, however the content is cut into chunks and however many of them are there.
-/

namespace StreamParse

/-- What stops a read where the bytes give out, or the fault that it ends in. -/
def Ending.stop (otherwise : Halt) : Ending → Except Fault Halt
  | .ended => .ok otherwise
  | .failed failure => .ok (.failed failure)
  | .overclaimed conduct => .error (.overclaimed conduct)

namespace Content

/-- The byte after the first `offset` bytes. -/
def byte (content : Content) (offset : Nat) : Except Fault (Except Halt UInt8) :=
  match content.bytes[offset]? with
  | some b => .ok (.ok b)
  | none => (content.ending.stop .ended).map .error

/-- The scalar value after the first `offset` bytes. -/
def rune (content : Content) (offset : Nat) : Except Fault (Except Halt Char) :=
  match Utf8.classify (content.bytes.drop offset) with
  | .scalar c => .ok (.ok c)
  | .malformed => .ok (.error .malformed)
  | .incomplete =>
    let otherwise := if (content.bytes.drop offset).isEmpty then .ended else .malformed
    (content.ending.stop otherwise).map .error

end Content

namespace Chain

/-! ## Places -/

theorem content_drop_of_marks
    {c : Chain} {place : Place} {offset : Nat} (h : c.Marks place offset)
    {chunk : Chunk} (hchunk : c.chunks[place.chunk]? = some chunk) :
    c.content.bytes.drop offset =
      chunk.bytes.toList.drop place.index ++ c.inputFrom (place.chunk + 1) := by
  obtain ⟨⟨chunk', hchunk', hindex⟩, hoffset, -⟩ := h
  obtain rfl : chunk = chunk' := by
    rw [hchunk] at hchunk'
    exact Option.some.inj hchunk'
  rw [hoffset, ← List.drop_drop, drop_content_bytes, inputFrom_of_getElem? hchunk,
    List.drop_append_of_le_length (by simpa using hindex)]

theorem byte_content_of_lt
    {c : Chain} {place : Place} {offset : Nat} (h : c.Marks place offset)
    {chunk : Chunk} (hchunk : c.chunks[place.chunk]? = some chunk)
    (hlt : place.index < chunk.bytes.size) :
    c.content.byte offset = .ok (.ok chunk.bytes[place.index]) := by
  have hpos : 0 < (chunk.bytes.toList.drop place.index).length := by
    rw [List.length_drop, Array.length_toList]
    omega
  have hget : c.content.bytes[offset]? = some chunk.bytes[place.index] := by
    rw [← Nat.add_zero offset, ← List.getElem?_drop, content_drop_of_marks h hchunk,
      List.getElem?_append_left hpos, List.getElem?_drop, Nat.add_zero, Array.getElem?_toList,
      Array.getElem?_eq_getElem hlt]
  rw [Content.byte, hget]

theorem getElem?_content_of_used
    {c : Chain} {place : Place} {offset : Nat} (h : c.Marks place offset)
    {chunk : Chunk} (hchunk : c.chunks[place.chunk]? = some chunk)
    (hused : place.index = chunk.bytes.size) :
    c.content.bytes[offset]? = (c.inputFrom (place.chunk + 1))[0]? ∧
      offset = c.offset (place.chunk + 1) := by
  have hnil : chunk.bytes.toList.drop place.index = [] := by
    rw [List.drop_eq_nil_iff, Array.length_toList]
    omega
  constructor
  · rw [← Nat.add_zero offset, ← List.getElem?_drop, content_drop_of_marks h hchunk, hnil,
      List.nil_append]
  · rw [h.offset_eq, offset_succ hchunk, hused]

theorem marks_le_length
    {c : Chain} {place : Place} {offset : Nat} (h : c.Marks place offset) :
    offset ≤ c.content.bytes.length := by
  obtain ⟨⟨chunk, hchunk, hindex⟩, hoffset, -⟩ := h
  have hle := c.offset_le (place.chunk + 1)
  rw [offset_succ hchunk] at hle
  omega

/-- At the end of the chunks of a chain without source, the last of them tells why. -/
theorem stop_haltAfter
    {c : Chain} {k : Nat} {chunk : Chunk} (hlast : k + 1 = c.chunks.size)
    (hsource : c.source = none) (hchunk : c.chunks[k]? = some chunk) (otherwise : Halt) :
    c.content.ending.stop otherwise = .ok (c.haltAfter k otherwise) ∧ c.inputFrom (k + 1) = [] := by
  have hrest := rest_of_last hlast hchunk
  rw [hsource] at hrest
  constructor
  · rw [content, hrest]
    simp only [haltAfter, hchunk, Option.bind_some, Chunk.following, Chunk.ending,
      Content.ending_prepend]
    cases chunk.failure <;> rfl
  · rw [hlast, inputFrom_size, hrest]
    rfl

end Chain

namespace Feed

open Chain

variable {α : Type}

/-- A read from `feed` comes to what the content says: a unit, with a place after it, a halt, or
the fault of a source that overclaims.  `stop` is the number of bytes before the place after a
unit. -/
inductive Finds (feed : Feed) (stop : α → Nat) :
    Except Fault (Except Halt α) → Except Fault (Except Halt (α × Place)) × Feed → Prop
  | unit {unit : α} {place : Place} {feed' : Feed} :
    feed.chain.Extends feed'.chain → feed'.chain.Marks place (stop unit) →
      Finds feed stop (.ok (.ok unit)) (.ok (.ok (unit, place)), feed')
  | halt {halt : Halt} {feed' : Feed} :
    feed.chain.Extends feed'.chain →
      Finds feed stop (.ok (.error halt)) (.ok (.error halt), feed')
  | fault {conduct : Conduct} {feed' : Feed} :
    feed.chain.Cut feed'.chain conduct →
      Finds feed stop (.error (.overclaimed conduct)) (.error (.overclaimed conduct), feed')

theorem Finds.of_extends
    {feed feed' : Feed} {stop : α → Nat} {reference : Except Fault (Except Halt α)}
    {result : Except Fault (Except Halt (α × Place)) × Feed}
    (h : feed.chain.Extends feed'.chain) (hfinds : feed'.Finds stop reference result) :
    feed.Finds stop reference result := by
  cases hfinds with
  | unit hextends hmarks => exact .unit (h.trans hextends) hmarks
  | halt hextends => exact .halt (h.trans hextends)
  | fault hcut => exact .fault (h.cut hcut)

/-! ## Bytes -/

/-- What passing over empty chunks after chunk `k` can come to: a chunk that begins where chunk `k`
ends, or what the input ends with, if it has no byte left. -/
inductive Reaches (feed : Feed) (k : Nat) :
    Except Fault (Except Halt (Nat × Chunk)) × Feed → Prop
  | chunk {k' : Nat} {chunk : Chunk} {feed' : Feed} :
    feed.chain.Extends feed'.chain → feed'.chain.chunks[k']? = some chunk →
      0 < chunk.bytes.size → feed'.chain.offset k' = feed'.chain.offset (k + 1) →
        Reaches feed k (.ok (.ok (k', chunk)), feed')
  | halt {halt : Halt} {feed' : Feed} :
    feed.chain.Extends feed'.chain → feed.chain.inputFrom (k + 1) = [] →
      feed.chain.content.ending.stop .ended = .ok halt →
        Reaches feed k (.ok (.error halt), feed')
  | fault {conduct : Conduct} {feed' : Feed} :
    feed.chain.Cut feed'.chain conduct → feed.chain.inputFrom (k + 1) = [] →
      Reaches feed k (.error (.overclaimed conduct), feed')

/-- A chunk that was passed over leaves the input after it as it was. -/
theorem Reaches.of_empty
    {feed feed₁ : Feed} {k : Nat} {chunk : Chunk} (hk : k < feed.chain.chunks.size)
    (hextends : feed.chain.Extends feed₁.chain)
    (hchunk : feed₁.chain.chunks[k + 1]? = some chunk) (hempty : chunk.bytes.size = 0)
    {result : Except Fault (Except Halt (Nat × Chunk)) × Feed}
    (h : feed₁.Reaches (k + 1) result) : feed.Reaches k result := by
  have hinput : feed₁.chain.inputFrom (k + 1 + 1) = feed.chain.inputFrom (k + 1) := by
    rw [← hextends.inputFrom_eq (by omega), inputFrom_of_getElem? hchunk]
    simp [Array.eq_empty_of_size_eq_zero hempty]
  cases h with
  | chunk hextends' hchunk' hpos hoffset =>
      refine .chunk (hextends.trans hextends') hchunk' hpos ?_
      rw [hoffset, offset_succ (getElem?_of_isPrefix hextends'.chunks hchunk), hempty]
      omega
  | halt hextends' hnil hstop =>
      exact .halt (hextends.trans hextends') (hinput ▸ hnil) (hextends.content ▸ hstop)
  | fault hcut hnil => exact .fault (hextends.cut hcut) (hinput ▸ hnil)

theorem reaches_following
    {feed : Feed} {k : Nat} (hsound : feed.chain.Sound) (hk : k < feed.chain.chunks.size) :
    feed.Reaches k (following k feed) := by
  fun_induction following k feed with
  | case1 k feed fault feed₁ hnext =>
      cases advances_of_next hsound hk hnext with
      | fault hcut hnil => exact .fault hcut hnil
  | case2 k feed feed₁ hnext =>
      cases advances_of_next hsound hk hnext with
      | last hlast hsource =>
          obtain ⟨hstop, hnil⟩ :=
            stop_haltAfter hlast hsource (Array.getElem?_eq_getElem hk) .ended
          exact .halt (Extends.refl hsound) hnil hstop
  | case3 k feed chunk feed₁ hnext hlt hempty ih =>
      cases advances_of_next hsound hk hnext with
      | chunk hextends hchunk =>
          have hk₁ := (Array.getElem?_eq_some_iff.1 hchunk).1
          exact .of_empty hk hextends hchunk (by simpa using hempty) (ih hextends.sound hk₁)
  | case4 k feed chunk feed₁ hnext hlt hempty =>
      cases advances_of_next hsound hk hnext with
      | chunk hextends hchunk =>
          have hpos : 0 < chunk.bytes.size := by
            simp only [Array.isEmpty, decide_eq_true_eq] at hempty
            omega
          exact .chunk hextends hchunk hpos rfl

/-- A byte is read as the content has it. -/
theorem finds_byte
    {feed : Feed} {place : Place} {offset : Nat} (hsound : feed.chain.Sound)
    (hmarks : feed.chain.Marks place offset) :
    feed.Finds (fun _ => offset + 1) (feed.chain.content.byte offset)
      ((byte place).run feed) := by
  obtain ⟨chunk, hchunk, hindex⟩ := hmarks.within
  have hk := (Array.getElem?_eq_some_iff.1 hchunk).1
  simp only [byte, hchunk]
  split
  · next hlt =>
    rw [byte_content_of_lt hmarks hchunk hlt]
    refine .unit (Extends.refl hsound) ⟨⟨chunk, hchunk, hlt⟩, ?_, by simp⟩
    rw [hmarks.offset_eq]
    exact Nat.add_assoc _ _ _
  · next hend =>
    rw [if_neg (by omega)]
    -- The chunk is used up, so the byte is the first one of the chunks after it.
    obtain ⟨hget, hoffset⟩ := getElem?_content_of_used hmarks hchunk (by omega)
    have hreaches := reaches_following hsound hk
    generalize following place.chunk feed = result at hreaches ⊢
    cases hreaches with
    | @chunk k' chunk' feed' hextends hchunk' hpos hoffset' =>
        have hfirst := Array.getElem?_eq_getElem hpos
        have hfound : feed.chain.content.byte offset = .ok (.ok chunk'.bytes[0]) := by
          have hrest : feed'.chain.inputFrom k' = feed.chain.inputFrom (place.chunk + 1) := by
            rw [← drop_content_bytes, hoffset', offset_of_isPrefix hextends.chunks (by omega),
              hextends.content, drop_content_bytes]
          rw [inputFrom_of_getElem? hchunk'] at hrest
          rw [Content.byte, hget, ← hrest, List.getElem?_append_left (by simpa using hpos),
            Array.getElem?_toList, hfirst]
        simp only [hfirst]
        rw [hfound]
        refine .unit hextends ⟨⟨chunk', hchunk', hpos⟩, ?_, by simp⟩
        rw [hoffset, hoffset', offset_of_isPrefix hextends.chunks (by omega)]
    | @halt halt feed' hextends hnil hstop =>
        have hfound : feed.chain.content.byte offset = .ok (.error halt) := by
          rw [Content.byte, hget, hnil]
          simp only [List.getElem?_nil, hstop]
          rfl
        rw [hfound]
        exact .halt hextends
    | @fault conduct feed' hcut hnil =>
        have hfound : feed.chain.content.byte offset = .error (.overclaimed conduct) := by
          rw [Content.byte, hget, hnil]
          simp only [List.getElem?_nil, hcut.overclaimed]
          rfl
        rw [hfound]
        exact .fault hcut

/-! ## Scalar values -/

end Feed

namespace Chain

/-- How far the sequence after the first `offset` bytes was followed: the chunks before chunk `k`
hold its bytes `before`, which leave it open, and `window` goes on with the bytes of chunk `k` from
index `start` on. -/
structure Follows (c : Chain) (offset k : Nat) (chunk : Chunk) (start : Nat)
    (before window : List UInt8) : Prop where
  sound : c.Sound
  getElem? : c.chunks[k]? = some chunk
  start_le : start ≤ chunk.bytes.size
  undecided : Utf8.classify before = .incomplete
  window_eq : window = (before ++ chunk.bytes.toList.drop start).take Utf8.maxWidth
  input_eq : c.content.bytes.drop offset =
    before ++ chunk.bytes.toList.drop start ++ c.inputFrom (k + 1)
  offset_eq : offset + before.length = c.offset k + start

namespace Follows

variable {c c' : Chain} {offset k start : Nat} {chunk chunk' : Chunk} {before window : List UInt8}

theorem of_marks
    {place : Place} (hsound : c.Sound) (hmarks : c.Marks place offset)
    (hchunk : c.chunks[place.chunk]? = some chunk) :
    c.Follows offset place.chunk chunk place.index []
      (chunk.bytes.extract place.index (place.index + Utf8.maxWidth)).toList := by
  obtain ⟨chunk', hchunk', hindex⟩ := hmarks.within
  rw [hchunk] at hchunk'
  cases hchunk'
  refine ⟨hsound, hchunk, hindex, Utf8.classify_nil, ?_, ?_, ?_⟩
  · simp [List.take_drop]
  · exact content_drop_of_marks hmarks hchunk
  · exact hmarks.offset_eq

theorem lt_size (h : c.Follows offset k chunk start before window) : k < c.chunks.size :=
  (Array.getElem?_eq_some_iff.1 h.getElem?).1

theorem classify_window (h : c.Follows offset k chunk start before window) :
    Utf8.classify window = Utf8.classify (before ++ chunk.bytes.toList.drop start) := by
  rw [h.window_eq, Utf8.classify_take_maxWidth]

/-- As long as the sequence is open, the window has all bytes up to the end of the chunk. -/
theorem window_eq_of_incomplete
    (h : c.Follows offset k chunk start before window)
    (hopen : Utf8.classify window = .incomplete) :
    window = before ++ chunk.bytes.toList.drop start := by
  have hlen := Utf8.length_lt_maxWidth_of_classify (h.classify_window ▸ hopen)
  rw [h.window_eq, List.take_of_length_le (by omega)]

theorem classify_content
    (h : c.Follows offset k chunk start before window)
    (hdecided : Utf8.classify window ≠ .incomplete) :
    Utf8.classify (c.content.bytes.drop offset) = Utf8.classify window := by
  rw [h.classify_window] at hdecided ⊢
  rw [h.input_eq, Utf8.classify_append hdecided]

/-- Where nothing follows the chunk, an open window is all that is left. -/
theorem drop_content_eq_window
    (h : c.Follows offset k chunk start before window)
    (hopen : Utf8.classify window = .incomplete) (hnil : c.inputFrom (k + 1) = []) :
    c.content.bytes.drop offset = window := by
  rw [h.input_eq, hnil, List.append_nil, h.window_eq_of_incomplete hopen]

theorem ends_in_chunk
    (h : c.Follows offset k chunk start before window) {scalar : Char}
    (hscalar : Utf8.classify window = .scalar scalar) :
    before.length < scalar.utf8Size ∧
      start + (scalar.utf8Size - before.length) ≤ chunk.bytes.size := by
  rw [h.classify_window] at hscalar
  have hlonger := Utf8.length_lt_utf8Size_of_classify h.undecided hscalar
  have hfits := Utf8.utf8Size_le_length_of_classify hscalar
  simp only [List.length_append, List.length_drop, Array.length_toList] at hfits
  have := h.start_le
  omega

theorem next
    (h : c.Follows offset k chunk start before window)
    (hopen : Utf8.classify window = .incomplete) (hextends : c.Extends c')
    (hchunk' : c'.chunks[k + 1]? = some chunk') :
    c'.Follows offset (k + 1) chunk' 0 window
      (window ++ (chunk'.bytes.extract 0 (Utf8.maxWidth - window.length)).toList) := by
  have hk := h.lt_size
  have hshort := Utf8.length_lt_maxWidth_of_classify hopen
  have hwhole := h.window_eq_of_incomplete hopen
  refine ⟨hextends.sound, hchunk', Nat.zero_le _, hopen, ?_, ?_, ?_⟩
  · rw [List.take_append, List.take_of_length_le (by omega)]
    simp
  · rw [hextends.content, h.input_eq, ← hwhole, ← hextends.inputFrom_eq (by omega),
      inputFrom_of_getElem? hchunk']
    simp
  · have hsize := h.start_le
    have hoffset := h.offset_eq
    rw [offset_of_isPrefix hextends.chunks (by omega), offset_succ h.getElem?, hwhole]
    simp only [List.length_append, List.length_drop, Array.length_toList]
    omega

end Follows

end Chain

namespace Feed

open Chain

/-- A sequence that was followed so far is followed to where the content decides it. -/
theorem finds_sequenceFrom
    {feed : Feed} {offset k start earlier : Nat} {chunk : Chunk} {window : List UInt8}
    (h : ∃ before, before.length = earlier ∧
      feed.chain.Follows offset k chunk start before window) :
    feed.Finds (fun c => offset + c.utf8Size) (feed.chain.content.rune offset)
      (sequenceFrom k chunk start earlier window feed) := by
  fun_induction sequenceFrom k chunk start earlier window feed with
  | case1 k chunk start earlier window feed hmalformed =>
      obtain ⟨before, rfl, hfollows⟩ := h
      have hfound : feed.chain.content.rune offset = .ok (.error .malformed) := by
        rw [Content.rune, hfollows.classify_content (by simp [hmalformed]), hmalformed]
      rw [hfound]
      exact .halt (Extends.refl hfollows.sound)
  | case2 k chunk start earlier window feed c hscalar stop hstop =>
      obtain ⟨before, rfl, hfollows⟩ := h
      have hfound : feed.chain.content.rune offset = .ok (.ok c) := by
        rw [Content.rune, hfollows.classify_content (by simp [hscalar]), hscalar]
      rw [hfound]
      refine .unit (Extends.refl hfollows.sound) ⟨⟨chunk, hfollows.getElem?, hstop.2⟩, ?_, ?_⟩
      · have := hfollows.offset_eq
        simp only
        omega
      · intro hzero
        simp only at hzero
        omega
  | case3 k chunk start earlier window feed c hscalar stop hstop =>
      obtain ⟨before, rfl, hfollows⟩ := h
      exact absurd (hfollows.ends_in_chunk hscalar) hstop
  | case4 k chunk start earlier window feed hopen hfull =>
      have := Utf8.length_lt_maxWidth_of_classify hopen
      omega
  | case5 k chunk start earlier window feed hopen hshort fault feed₁ hnext =>
      obtain ⟨before, rfl, hfollows⟩ := h
      cases advances_of_next hfollows.sound hfollows.lt_size hnext with
      | @fault conduct feed₁ hcut hnil =>
          have hfound : feed.chain.content.rune offset = .error (.overclaimed conduct) := by
            rw [Content.rune, hfollows.drop_content_eq_window hopen hnil, hopen, hcut.overclaimed]
            rfl
          rw [hfound]
          exact .fault hcut
  | case6 k chunk start earlier window feed hopen hshort feed₁ hnext otherwise =>
      obtain ⟨before, rfl, hfollows⟩ := h
      cases advances_of_next hfollows.sound hfollows.lt_size hnext with
      | last hlast hsource =>
          obtain ⟨hstop, hnil⟩ := stop_haltAfter hlast hsource hfollows.getElem?
            (if window.isEmpty then .ended else .malformed)
          have hfound : feed.chain.content.rune offset =
              .ok (.error (feed.chain.haltAfter k otherwise)) := by
            rw [Content.rune, hfollows.drop_content_eq_window hopen hnil, hopen]
            simp only [hstop]
            rfl
          rw [hfound]
          exact .halt (Extends.refl hfollows.sound)
  | case7 k chunk start earlier window feed hopen hshort chunk₁ feed₁ hnext hlt more ih =>
      obtain ⟨before, rfl, hfollows⟩ := h
      cases advances_of_next hfollows.sound hfollows.lt_size hnext with
      | chunk hextends hchunk₁ =>
          refine .of_extends hextends ?_
          rw [← hextends.content]
          exact ih ⟨window, rfl, hfollows.next hopen hextends hchunk₁⟩

/-- A scalar value is read as the content has it. -/
theorem finds_rune
    {feed : Feed} {place : Place} {offset : Nat} (hsound : feed.chain.Sound)
    (hmarks : feed.chain.Marks place offset) :
    feed.Finds (fun c => offset + c.utf8Size) (feed.chain.content.rune offset)
      ((rune place).run feed) := by
  obtain ⟨chunk, hchunk, hindex⟩ := hmarks.within
  simp only [rune, hchunk]
  rw [if_neg (by omega)]
  exact finds_sequenceFrom ⟨[], rfl, .of_marks hsound hmarks hchunk⟩

end Feed
end StreamParse
