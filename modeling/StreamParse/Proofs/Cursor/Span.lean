import StreamParse.Cursor.Span
import StreamParse.Proofs.Cursor.Traversal
import StreamParse.Proofs.Utf8.Text

/-!
# Spans are cut out of the content

The input between two cursors of one chain is what the content has between their offsets.  Places
that reading leads to are ordered as their offsets are, so the later one is found from the earlier
one without pulling anything.
-/

namespace StreamParse

namespace Content

/-- The bytes from one offset up to another. -/
def between (content : Content) (start stop : Nat) : List UInt8 :=
  (content.bytes.drop start).take (stop - start)

/-- The text from one position up to another, or the place of the first sequence there that is
malformed or cut short. -/
def textBetween (content : Content) (start stop : Position) : Except Error String :=
  let (text, rest) := Utf8.decode (content.between start.offset stop.offset)
  if rest.isEmpty then .ok (String.ofList text)
  else .error (.invalidEncoding (start.pass text))

theorem between_congr
    {content view : Content} (h : view.bytes = content.bytes) (start stop : Nat) :
    view.between start stop = content.between start stop := by
  rw [between, between, h]

theorem eq_between
    {content : Content} {start stop : Nat} {bytes : List UInt8}
    (h : bytes <+: content.bytes.drop start) (hlength : bytes.length = stop - start) :
    bytes = content.between start stop := by
  rw [between, ← hlength]
  exact List.prefix_iff_eq_take.1 h

theorem length_between
    {content : Content} (start : Nat) {stop : Nat} (hstop : stop ≤ content.bytes.length) :
    (content.between start stop).length = stop - start := by
  rw [between, List.length_take, List.length_drop]
  omega

theorem between_of_isPrefix
    {bytes : List UInt8} {content : Content} (h : bytes <+: content.bytes) {stop : Nat}
    (hstop : stop ≤ bytes.length) (ending : Ending) (start : Nat) :
    content.between start stop = between ⟨bytes, ending⟩ start stop := by
  by_cases hle : start ≤ stop
  · obtain ⟨more, hmore⟩ := h
    rw [between, between, ← hmore, List.drop_append_of_le_length (by omega),
      List.take_append_of_le_length (by rw [List.length_drop]; omega)]
  · rw [between, between, Nat.sub_eq_zero_of_le (by omega), List.take_zero, List.take_zero]

end Content

namespace Chain

theorem toList_between (c : Chain) (first last : Nat) :
    (c.between first last).toList =
      ((c.chunks.toList.drop first).take (last - first)).flatMap (·.bytes.toList) := by
  have hfold : ∀ (chunks : List Chunk) (bytes : Array UInt8),
      (chunks.foldl (fun bytes chunk => bytes ++ chunk.bytes) bytes).toList =
        bytes.toList ++ chunks.flatMap (·.bytes.toList) := by
    intro chunks
    induction chunks with
    | nil => simp
    | cons chunk chunks ih => simp [ih]
  rw [between, ← Array.foldl_toList, hfold, Array.toList_extract, List.extract_eq_take_drop]
  rfl

theorem inputFrom_eq_between (c : Chain) {first last : Nat} (hle : first ≤ last) :
    c.inputFrom first = (c.between first last).toList ++ c.inputFrom last := by
  obtain ⟨n, rfl⟩ := Nat.exists_eq_add_of_le hle
  rw [toList_between, inputFrom, inputFrom, ← List.append_assoc, ← List.flatMap_append,
    Nat.add_sub_cancel_left, ← List.drop_drop, List.take_append_drop]

theorem offset_eq_between (c : Chain) {first last : Nat} (hle : first ≤ last) :
    c.offset last = c.offset first + (c.between first last).size := by
  obtain ⟨n, rfl⟩ := Nat.exists_eq_add_of_le hle
  rw [← Array.length_toList, toList_between, offset, offset, Nat.add_sub_cancel_left,
    List.take_add, List.flatMap_append, List.length_append]

theorem slice_eq
    {c : Chain} {k start stop : Nat} {chunk : Chunk} (hchunk : c.chunks[k]? = some chunk)
    (hle : start ≤ stop) (hstop : stop ≤ chunk.bytes.size) :
    c.slice k start stop = .ok (chunk.bytes.extract start stop) := by
  simp only [slice, hchunk]
  rw [if_pos ⟨hle, hstop⟩]

theorem Marks.chunk_le
    {c : Chain} {start stop : Place} {a b : Nat} (hstart : c.Marks start a)
    (hstop : c.Marks stop b) (hle : a ≤ b) : start.chunk ≤ stop.chunk := by
  by_contra hlt
  obtain ⟨⟨chunk, hchunk, hindex⟩, hb, -⟩ := hstop
  have hsucc := offset_succ hchunk
  have hbetween := c.offset_eq_between (by omega : stop.chunk + 1 ≤ start.chunk)
  have ha := hstart.offset_eq
  have hzero := hstart.canonical (by omega)
  omega

theorem span_eq_of_same_chunk
    {c : Chain} {start stop : Place} {a b : Nat} (hstart : c.Marks start a)
    (hstop : c.Marks stop b) (hle : a ≤ b) (hsame : start.chunk = stop.chunk) :
    c.span start stop = .ok (c.content.between a b).toArray := by
  obtain ⟨chunk, hchunk, hstopIndex⟩ := hstop.within
  rw [← hsame] at hchunk
  have ha := hstart.offset_eq
  have hb := hstop.offset_eq
  have hindex : start.index ≤ stop.index := by
    rw [ha, hb, hsame] at hle
    omega
  have hbytes : (chunk.bytes.toList.drop start.index).take (stop.index - start.index) =
      c.content.between a b := by
    refine Content.eq_between ?_ ?_
    · rw [content_drop_of_marks hstart hchunk]
      exact (List.take_prefix _ _).trans (List.prefix_append _ _)
    · simp only [List.length_drop, List.length_take, Array.length_toList, ha, hb, hsame]
      omega
  simp only [span]
  rw [if_pos ⟨hsame, hindex⟩, slice_eq hchunk hindex hstopIndex, ← hbytes]
  refine congrArg Except.ok (Array.toList_inj.1 ?_)
  simp

/-- A span over several chunks is put together from the rest of the first one, the chunks between
and the beginning of the last one. -/
theorem span_eq_of_later_chunk
    {c : Chain} {start stop : Place} {a b : Nat} (hstart : c.Marks start a)
    (hstop : c.Marks stop b) (hlt : start.chunk < stop.chunk) :
    c.span start stop = .ok (c.content.between a b).toArray := by
  obtain ⟨first, hfirst, hfirstIndex⟩ := hstart.within
  obtain ⟨last, hlast, hlastIndex⟩ := hstop.within
  have ha := hstart.offset_eq
  have hb := hstop.offset_eq
  have hinput := c.inputFrom_eq_between (by omega : start.chunk + 1 ≤ stop.chunk)
  have hoffset := c.offset_eq_between (by omega : start.chunk + 1 ≤ stop.chunk)
  rw [offset_succ hfirst] at hoffset
  have hbytes : first.bytes.toList.drop start.index ++
      (c.between (start.chunk + 1) stop.chunk).toList ++ last.bytes.toList.take stop.index =
        c.content.between a b := by
    refine Content.eq_between ?_ ?_
    · rw [content_drop_of_marks hstart hfirst, hinput, inputFrom_of_getElem? hlast,
        List.append_assoc]
      refine (List.prefix_append_right_inj _).2 ((List.prefix_append_right_inj _).2 ?_)
      exact (List.take_prefix _ _).trans (List.prefix_append _ _)
    · simp only [List.length_append, List.length_drop, List.length_take, Array.length_toList]
      omega
  simp only [span, sliceFrom, hfirst, if_pos hlt]
  rw [if_neg (by omega), slice_eq hfirst hfirstIndex (Nat.le_refl _),
    slice_eq hlast (Nat.zero_le _) hlastIndex, ← hbytes]
  refine congrArg Except.ok (Array.toList_inj.1 ?_)
  simp [List.take_of_length_le]

/-- The span between two places is what the content has between their offsets. -/
theorem span_eq
    {c : Chain} {start stop : Place} {a b : Nat} (hstart : c.Marks start a)
    (hstop : c.Marks stop b) (hle : a ≤ b) :
    c.span start stop = .ok (c.content.between a b).toArray := by
  rcases Nat.lt_or_eq_of_le (hstart.chunk_le hstop hle) with hlt | heq
  · exact span_eq_of_later_chunk hstart hstop hlt
  · exact span_eq_of_same_chunk hstart hstop hle heq

end Chain

namespace Cursor

variable {store : Store} {i : Nat} {start stop : Cursor}

theorem offset_le_of_sees
    {content : Content} {cursor : Cursor} (h : store.Sees i (some content) cursor) :
    cursor.position.offset ≤ content.bytes.length := by
  cases h with
  | attached hchain hsound hmarks => exact Chain.marks_le_length hmarks

/-- The input between two cursors of one chain is that of the content, and having it changes
nothing. -/
theorem run_bytesUntil
    {content : Content} (hstart : store.Sees i (some content) start)
    (hstop : store.Sees i (some content) stop)
    (hle : start.position.offset ≤ stop.position.offset) :
    (start.bytesUntil stop).run store =
      (.ok (content.between start.position.offset stop.position.offset).toArray, store) := by
  have hlength := Content.length_between start.position.offset (offset_le_of_sees hstop)
  cases hstart with
  | @attached chain first p hchain hsound hmarks =>
      generalize hview : some chain.content = view at hstop
      cases hstop with
      | detached => cases hview
      | @attached chain' last q hchain' hsound' hmarks' =>
          rw [hchain] at hchain'
          cases hchain'
          have hspan := Chain.span_eq hmarks hmarks' hle
          rw [bytesUntil, if_neg (Nat.not_lt.2 hle)]
          simp only [if_true, hchain, hspan]
          rw [if_pos (by simpa using hlength)]

theorem run_bytesUntil_of_detached
    (hstart : store.Sees i none start) (hle : start.position.offset ≤ stop.position.offset) :
    (start.bytesUntil stop).run store = (.error .detached, store) := by
  cases hstart with
  | detached =>
      rw [bytesUntil, if_neg (Nat.not_lt.2 hle)]
      rfl

theorem run_textUntil_of_valid
    {content : Content} (hstart : store.Sees i (some content) start)
    (hstop : store.Sees i (some content) stop)
    (hle : start.position.offset ≤ stop.position.offset) {text : List Char}
    (htext : Utf8.encode text = content.between start.position.offset stop.position.offset) :
    (start.textUntil stop).run store = (.ok (.ok (String.ofList text)), store) := by
  rcases hdecode : Utf8.decode (content.between start.position.offset stop.position.offset) with
    ⟨good, rest⟩
  have hsplit := Utf8.encode_append_of_decode hdecode
  have hlongest := Utf8.longest_of_decode hdecode
  obtain rfl : good = text := hlongest.eq (htext ▸ Utf8.longest_encode text)
  have hrest : rest = [] := by simpa [htext] using hsplit
  simp only [textUntil, Action.run_bind, run_bytesUntil hstart hstop hle, hdecode, hrest]
  rfl

/-- If the input between two cursors of one chain is not valid, the error is found by reading the
longest text that it begins with, and nothing else. -/
theorem run_textUntil_of_invalid
    {content : Content} (hstart : store.Sees i (some content) start)
    (hstop : store.Sees i (some content) stop)
    (hle : start.position.offset ≤ stop.position.offset) {good : List Char}
    (hgood : Utf8.Longest
      (content.between start.position.offset stop.position.offset) good)
    (hinvalid : Utf8.encode good ≠
      content.between start.position.offset stop.position.offset) :
    ∃ found store', Through .runes start store good found store' ∧
      (start.textUntil stop).run store = (.ok (.error (.invalidEncoding found.position)), store') ∧
        store.Keeps store' ∧ store.Heeds store' none := by
  rcases hdecode : Utf8.decode (content.between start.position.offset stop.position.offset) with
    ⟨text, rest⟩
  have hsplit := Utf8.encode_append_of_decode hdecode
  obtain rfl : text = good := (Utf8.longest_of_decode hdecode).eq hgood
  have hrest : ¬ rest.isEmpty := by
    intro hempty
    rw [List.isEmpty_iff.1 hempty, List.append_nil] at hsplit
    exact hinvalid hsplit
  -- The text stands in the content, whatever comes after the span.
  obtain ⟨found, store', hthrough, hkeeps, hheeds, -⟩ :=
    exists_through hstart (hgood.isPrefix.trans (List.take_prefix _ _))
  refine ⟨found, store', hthrough, ?_, hkeeps, hheeds⟩
  have htarget : start.position.offset +
      ((content.between start.position.offset stop.position.offset).toArray.size - rest.length) =
        found.position.offset := by
    rw [hthrough.position_eq, Position.offset_pass, ← hsplit]
    simp
  simp only [textUntil, Action.run_bind, run_bytesUntil hstart hstop hle, hdecode, if_neg hrest,
    htarget, hthrough.run_seek]
  rfl

/-- The text between two cursors of one chain is that of the content.  The reads that find the
place of an error all succeed. -/
theorem run_textUntil
    {content : Content} (hstart : store.Sees i (some content) start)
    (hstop : store.Sees i (some content) stop)
    (hle : start.position.offset ≤ stop.position.offset) :
    ∃ store', (start.textUntil stop).run store =
        (.ok (content.textBetween start.position stop.position), store') ∧
      store.Keeps store' ∧ store.Heeds store' none := by
  rcases hdecode : Utf8.decode
    (content.between start.position.offset stop.position.offset) with ⟨text, rest⟩
  have hsplit := Utf8.encode_append_of_decode hdecode
  simp only [Content.textBetween, hdecode]
  by_cases hrest : rest.isEmpty
  · rw [if_pos hrest]
    rw [List.isEmpty_iff.1 hrest, List.append_nil] at hsplit
    exact ⟨store, run_textUntil_of_valid hstart hstop hle hsplit, .refl store, .refl store none⟩
  · rw [if_neg hrest]
    have hinvalid : Utf8.encode text ≠
        content.between start.position.offset stop.position.offset := by
      rw [← hsplit]
      simpa using hrest
    obtain ⟨found, store', hthrough, hrun, hkeeps, hheeds⟩ :=
      run_textUntil_of_invalid hstart hstop hle (Utf8.longest_of_decode hdecode) hinvalid
    exact ⟨store', by rw [hrun, hthrough.position_eq], hkeeps, hheeds⟩

end Cursor
end StreamParse
