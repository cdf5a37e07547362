import StreamParse.Proofs.Onward
import StreamParse.Proofs.Parser.Composed

/-!
# Parsers go onward or stay

A parser of this library gives a cursor that reads lead to from its entry, or it fails with its
entry.  So does everything that is built from such parsers, and this is why captures always find
the input that was taken: between the entry and a cursor onward of it all chunks are at hand.

A parser of one's own takes part if it keeps to the same rule.  Faults of its own are kept apart
from those of the library.
-/

namespace StreamParse

open Store Session

variable {α β γ : Type}

/-- A success with a cursor onward of the entry, or a failure with the entry itself. -/
def Store.OnwardOrBack (entry : Cursor) (store : Store) : Parsed α → Prop
  | .error failure => failure.cursor = entry
  | .ok (_, cursor) => store.Onward entry cursor

namespace Parser

variable {grammar : Grammar} {inputs : List (String × Input)} {i : Nat} {own : Fault → Prop}

/-- From every known cursor on input `i`, whatever reads were made before, the parser is made of
reads and goes onward or back to its entry.  Its faults are excused. -/
def GoesOnward (grammar : Grammar) (inputs : List (String × Input)) (i : Nat)
    (own : Fault → Prop) (p : Parser α) : Prop :=
  ∀ ⦃store : Store⦄ ⦃entry : Cursor⦄, Stands grammar inputs i store entry →
    store.Proceeds (Excused inputs i own) (OnwardOrBack entry) ((p entry).run store)

theorem onwardOrBack_rewind
    {store : Store} {entry middle : Cursor} (hmiddle : store.Onward entry middle)
    {parsed : Parsed α} (h : store.OnwardOrBack middle parsed) :
    store.OnwardOrBack entry (parsed.rewind entry) := by
  cases parsed with
  | error failure => rfl
  | ok success => exact hmiddle.trans h

/-! ## Parsers that read units themselves -/

theorem proceeds_readUnits
    [DecidableEq α] {r : Reading α} (hr : r.Regular) (expected : List α) {store : Store}
    {cursor : Cursor} (h : Stands grammar inputs i store cursor) :
    store.Proceeds (Excused inputs i own)
      (fun store' result => ∀ next, result = .ok next → store'.Onward cursor next)
      ((readUnits r expected cursor).run store) := by
  induction expected generalizing store cursor with
  | nil =>
      refine .pure ?_
      rintro _ ⟨⟩
      exact .refl
  | cons unit rest ih =>
      refine (Cursor.proceeds_read hr h).bind ?_
      intro result store' hreaches honward
      rcases result with error | ⟨found, next⟩
      · exact .pure fun _ hnext => by cases hnext
      · dsimp only
        split
        · obtain ⟨⟨hreaches', hgives⟩, hfaults⟩ := ih ((h.after hreaches).onward honward)
          refine ⟨⟨hreaches', ?_⟩, hfaults⟩
          intro result hvalue last hlast
          exact (Onward.reaches honward hreaches').trans (hgives result hvalue last hlast)
        · exact .pure fun _ hnext => by cases hnext

theorem exactly_onward
    [DecidableEq α] {r : Reading α} (hr : r.Regular) (expected : List α) :
    (exactly r expected).GoesOnward grammar inputs i own := by
  intro store entry h
  refine (proceeds_readUnits hr expected h).bind ?_
  intro result store' hreaches honward
  cases result with
  | error error => exact .pure rfl
  | ok cursor => exact .pure (honward cursor rfl)

theorem satisfying_onward {r : Reading α} (hr : r.Regular) (accepts : α → Bool) :
    (satisfying r accepts).GoesOnward grammar inputs i own := by
  intro store entry h
  refine (Cursor.proceeds_read hr h).bind ?_
  intro result store' hreaches honward
  rcases result with error | ⟨unit, next⟩
  · exact .pure rfl
  · dsimp only
    split
    · exact .pure honward
    · exact .pure rfl

theorem endOfInput_onward : endOfInput.GoesOnward grammar inputs i own := by
  intro store entry h
  refine (Cursor.proceeds_read Reading.regular_bytes h).bind ?_
  intro result store' hreaches _
  split
  · exact .pure .refl
  · exact .pure rfl
  · exact .pure rfl

theorem proceeds_numeral
    (type : IntType) (negative : Bool) {store : Store} {entry start : Cursor}
    (h : Stands grammar inputs i store entry) (hstart : store.Onward entry start) :
    store.Proceeds (Excused inputs i own) (OnwardOrBack entry)
      ((numeral type negative entry start).run store) := by
  refine Proceeds.bind (x := start.readWhile .bytes _ _ _)
    (Cursor.proceeds_traverse Reading.regular_bytes _ _ (h.onward hstart)) ?_
  intro digits store' hreaches honward
  split
  · exact .pure rfl
  · exact .pure ((hstart.reaches hreaches).trans honward)

theorem asciiDigits_onward (type : IntType) :
    (asciiDigits type).GoesOnward grammar inputs i own :=
  fun _ _ h => proceeds_numeral type false h .refl

theorem signedAsciiDigits_onward (type : IntType) :
    (signedAsciiDigits type).GoesOnward grammar inputs i own := by
  intro store entry h
  refine (Cursor.proceeds_read Reading.regular_bytes h).bind ?_
  intro result store' hreaches honward
  rcases result with error | ⟨b, next⟩
  · exact proceeds_numeral type false (h.after hreaches) .refl
  · dsimp only
    split
    · exact proceeds_numeral type true (h.after hreaches) honward
    · exact proceeds_numeral type false (h.after hreaches) .refl

/-! ## Combinations -/

section

variable {p q : Parser α}

theorem bind_onward
    {next : α → Parser β} (hp : p.GoesOnward grammar inputs i own)
    (hnext : ∀ a, (next a).GoesOnward grammar inputs i own) :
    (bind p next).GoesOnward grammar inputs i own := by
  intro store entry h
  refine (hp h).bind ?_
  intro parsed store' hreaches honward
  rcases parsed with failure | ⟨value, cursor⟩
  · exact .pure rfl
  · refine (hnext value ((h.after hreaches).onward honward)).bind ?_
    intro parsed store'' hreaches' hparsed
    exact .pure (onwardOrBack_rewind (Onward.reaches honward hreaches') hparsed)

theorem sequence_onward
    {q : Parser β} (combine : α → β → Except Cause γ) (hp : p.GoesOnward grammar inputs i own)
    (hq : q.GoesOnward grammar inputs i own) :
    (sequence p q combine).GoesOnward grammar inputs i own := by
  intro store entry h
  refine (hp h).bind ?_
  intro parsed store' hreaches honward
  rcases parsed with failure | ⟨a, middle⟩
  · exact .pure rfl
  · refine (hq ((h.after hreaches).onward honward)).bind ?_
    intro parsed store'' hreaches' honward'
    rcases parsed with failure | ⟨b, cursor⟩
    · exact .pure rfl
    · dsimp only
      split
      · exact .pure rfl
      · exact .pure ((Onward.reaches honward hreaches').trans honward')

theorem map_onward (f : α → β) (hp : p.GoesOnward grammar inputs i own) :
    (map f p).GoesOnward grammar inputs i own := by
  intro store entry h
  refine (hp h).bind ?_
  intro parsed store' _ honward
  rcases parsed with failure | ⟨value, cursor⟩
  · exact .pure honward
  · exact .pure honward

theorem or_onward
    (hp : p.GoesOnward grammar inputs i own) (hq : q.GoesOnward grammar inputs i own) :
    (or p q).GoesOnward grammar inputs i own := by
  intro store entry h
  refine (hp h).bind ?_
  intro parsed store' hreaches honward
  rcases parsed with failure | success
  · dsimp only
    split
    · refine (hq (h.after hreaches)).bind ?_
      intro parsed store'' _ hparsed
      exact .pure (onwardOrBack_rewind .refl hparsed)
    · exact .pure rfl
  · exact .pure honward

theorem optional_onward (hp : p.GoesOnward grammar inputs i own) :
    (optional p).GoesOnward grammar inputs i own := by
  intro store entry h
  refine (hp h).bind ?_
  intro parsed store' _ honward
  rcases parsed with failure | ⟨value, cursor⟩
  · dsimp only
    split
    · exact .pure .refl
    · exact .pure rfl
  · exact .pure honward

/-- Between two turns of a repetition the cursor is onward of the entry.  Its offset is one of the
input, so only inputs longer than offsets can tell lead to one that is no address. -/
theorem proceeds_collect
    (hp : p.GoesOnward grammar inputs i own) (values : Array α) {store : Store}
    {entry cursor : Cursor} (h : Stands grammar inputs i store entry)
    (hcursor : store.Onward entry cursor) :
    store.Proceeds (Excused inputs i own) (OnwardOrBack entry)
      ((collect p entry values cursor).run store) := by
  induction hleft : offsetLimit - cursor.position.offset using Nat.strongRecOn
    generalizing store values cursor with
  | ind left ih =>
      rw [collect]
      refine (hp (h.onward hcursor)).bind ?_
      intro parsed store' hreaches honward
      have hentry := h.after hreaches
      have hcursor' := hcursor.reaches hreaches
      rcases parsed with failure | ⟨value, next⟩
      · dsimp only
        split
        · exact .pure hcursor'
        · exact .pure rfl
      · have hnext : store'.Onward entry next := hcursor'.trans honward
        dsimp only
        split
        · exact .pure hnext
        · split
          · next hlimit =>
            obtain ⟨content, hcontent⟩ := hentry.exists_content
            have hle := (hentry.onward hnext).offset_le hcontent
            refine .fault (Or.inr ⟨content, hcontent, Or.inr ⟨?_, rfl⟩⟩)
            exact Nat.le_trans hlimit hle
          · exact ih (offsetLimit - next.position.offset) (by omega) _ hentry hnext rfl

theorem many_onward (hp : p.GoesOnward grammar inputs i own) :
    (many p).GoesOnward grammar inputs i own :=
  fun _ _ h => proceeds_collect hp #[] h .refl

/-! ## Captures -/

theorem captureBytes_onward (hp : p.GoesOnward grammar inputs i own) :
    (captureBytes p).GoesOnward grammar inputs i own := by
  intro store entry h
  refine (hp h).bind ?_
  intro parsed store' hreaches honward
  rcases parsed with failure | ⟨value, cursor⟩
  · exact .pure rfl
  · have hentry := h.after hreaches
    obtain ⟨content, hcontent⟩ := hentry.exists_content
    dsimp only
    rw [Action.run_bind, Cursor.run_bytesUntil_of_onward hentry honward hcontent]
    exact .pure honward

theorem captureText_onward (hp : p.GoesOnward grammar inputs i own) :
    (captureText p).GoesOnward grammar inputs i own := by
  intro store entry h
  refine (hp h).bind ?_
  intro parsed store' hreaches honward
  rcases parsed with failure | ⟨value, cursor⟩
  · exact .pure rfl
  · have hentry := h.after hreaches
    obtain ⟨content, hcontent⟩ := hentry.exists_content
    have hleads := Cursor.leads_textUntil hentry.known cursor
    obtain ⟨store'', hrun⟩ := Cursor.run_textUntil_of_onward hentry honward hcontent
    have htext : store'.Proceeds (Excused inputs i own) Anything
        ((entry.textUntil cursor).run store') := by
      refine ⟨hleads, ?_⟩
      rw [hrun]
      exact fun _ hfault => by cases hfault
    refine htext.bind ?_
    intro text store₃ hreaches' _
    cases text with
    | error error => exact .pure rfl
    | ok text => exact .pure (Onward.reaches honward hreaches')

theorem capturePositions_onward (hp : p.GoesOnward grammar inputs i own) :
    (capturePositions p).GoesOnward grammar inputs i own := by
  intro store entry h
  refine (hp h).bind ?_
  intro parsed store' _ honward
  rcases parsed with failure | ⟨value, cursor⟩
  · exact .pure rfl
  · exact .pure honward

end

/-- Everything built from parsers of the library and from parsers that go onward goes onward. -/
theorem Composed.goesOnward
    {p : Parser α} (h : Composed (GoesOnward grammar inputs i own) p) :
    p.GoesOnward grammar inputs i own := by
  induction h with
  | custom honward => exact honward
  | literal text => exact exactly_onward Reading.regular_runes text.toList
  | literalBytes bytes => exact exactly_onward Reading.regular_bytes bytes
  | satisfy accepts => exact satisfying_onward Reading.regular_runes accepts
  | satisfyByte accepts => exact satisfying_onward Reading.regular_bytes accepts
  | endOfInput => exact endOfInput_onward
  | asciiDigits type => exact asciiDigits_onward type
  | signedAsciiDigits type => exact signedAsciiDigits_onward type
  | newline =>
      exact or_onward (exactly_onward Reading.regular_runes _)
        (exactly_onward Reading.regular_runes _)
  | bind _ _ ihp ihnext => exact bind_onward ihp ihnext
  | sequence combine _ _ ihp ihq => exact sequence_onward combine ihp ihq
  | map f _ ih => exact map_onward f ih
  | or _ _ ihp ihq => exact or_onward ihp ihq
  | optional _ ih => exact optional_onward ih
  | many _ ih => exact many_onward ih
  | captureText _ ih => exact captureText_onward ih
  | captureBytes _ ih => exact captureBytes_onward ih
  | capturePositions _ ih => exact capturePositions_onward ih

/-! ## What captures give -/

/-- What some bytes are as text, from a position on: the text that they encode, or an error at the
first sequence that is malformed or cut short. -/
inductive TextOf (start : Position) : List UInt8 → Except Error String → Prop
  | text (text : String) : TextOf start (Utf8.encode text.toList) (.ok text)
  | malformed {good : List Char} {bad : List UInt8} :
    bad ≠ [] → (∀ c, ¬ String.utf8EncodeChar c <+: bad) →
      TextOf start (Utf8.encode good ++ bad) (.error (.invalidEncoding (start.pass good)))

theorem textOf_textBetween (content : Content) (start stop : Position) :
    TextOf start (content.between start.offset stop.offset) (content.textBetween start stop) := by
  rcases hdecode : Utf8.decode (content.between start.offset stop.offset) with ⟨text, rest⟩
  rw [← Utf8.encode_append_of_decode hdecode]
  simp only [Content.textBetween, hdecode]
  cases hrest : rest with
  | nil =>
      have htext : TextOf start (Utf8.encode (String.ofList text).toList)
          (.ok (String.ofList text)) := .text _
      simpa using htext
  | cons b bad =>
      rw [← hrest]
      have hne : rest ≠ [] := by simp [hrest]
      rw [if_neg (by simpa using hne)]
      exact .malformed hne (Utf8.not_isPrefix_of_decode hdecode)

/-- What captures give where a parser took the input up to a cursor. -/
structure Captured (p : Parser α) (content : Content) (entry cursor : Cursor)
    (store store' : Store) : Prop where
  bytes : (captureBytes p entry).run store =
    (.ok (.ok ((content.between entry.position.offset cursor.position.offset).toArray, cursor)),
      store')
  positions : (capturePositions p entry).run store =
    (.ok (.ok ((entry.position, cursor.position), cursor)), store')
  text : ∃ result store'',
    TextOf entry.position (content.between entry.position.offset cursor.position.offset) result ∧
      (captureText p entry).run store = (.ok (Parsed.raise entry (result.map (·, cursor))), store'')

theorem GoesOnward.captured
    {p : Parser α} (hp : p.GoesOnward grammar inputs i own) {store store' : Store}
    {entry cursor : Cursor} (h : Stands grammar inputs i store entry) {value : α}
    (hrun : (p entry).run store = (.ok (.ok (value, cursor)), store')) {content : Content}
    (hcontent : (Input.contents inputs)[i]? = some content) :
    p.Captured content entry cursor store store' := by
  obtain ⟨⟨hreaches, hgives⟩, -⟩ := hp h
  rw [hrun] at hreaches hgives
  have honward : store'.Onward entry cursor := hgives _ rfl
  have hentry := h.after hreaches
  constructor
  · simp only [captureBytes, Action.run_bind, hrun,
      Cursor.run_bytesUntil_of_onward hentry honward hcontent]
    rfl
  · simp only [capturePositions, Action.run_bind, hrun]
    rfl
  · obtain ⟨store'', htext⟩ := Cursor.run_textUntil_of_onward hentry honward hcontent
    refine ⟨_, store'', textOf_textBetween content _ _, ?_⟩
    simp only [captureText, Action.run_bind, hrun, htext]
    cases content.textBetween entry.position cursor.position <;> rfl

/-- A capture adds no fault to those of its parser. -/
theorem GoesOnward.fault_of_capture
    {p : Parser α} (hp : p.GoesOnward grammar inputs i own) {store : Store} {entry : Cursor}
    (h : Stands grammar inputs i store entry) {fault : Fault}
    (hfault : ((captureText p entry).run store).1 = .error fault ∨
      ((captureBytes p entry).run store).1 = .error fault ∨
        ((capturePositions p entry).run store).1 = .error fault) :
    ((p entry).run store).1 = .error fault := by
  rcases hrun : (p entry).run store with ⟨fault' | failure | ⟨value, cursor⟩, store'⟩
  · simpa [captureText, captureBytes, capturePositions, Action.run_bind, hrun] using hfault
  · simp [captureText, captureBytes, capturePositions, Action.run_bind, hrun] at hfault
  · obtain ⟨content, hcontent⟩ := h.exists_content
    obtain ⟨hbytes, hpositions, result, store'', -, htext⟩ := hp.captured h hrun hcontent
    simp [hbytes, hpositions, htext] at hfault

/-- A parse either goes onward by reads or stays where it was.  From every known cursor of an
input, whatever was read before, a success ends at a cursor that reads lead to from the entry, on
the same chain and between the offset of the entry and the end of the content; a failure carries
the entry.  A fault is one of the custom parsers, or else the input is none that can be read to
its end.  So captures add no fault: they give exactly the input that was taken, as bytes, as
positions, and as text or as the place where it is no text. -/
theorem parse_onward
    {p : Parser α} (hp : Composed (GoesOnward grammar inputs i own) p) {store : Store}
    {entry : Cursor} (h : Stands grammar inputs i store entry) :
    (∀ fault, ((p entry).run store).1 = .error fault → Excused inputs i own fault) ∧
    (∀ failure, ((p entry).run store).1 = .ok (.error failure) → failure.cursor = entry) ∧
    (∀ value cursor store', (p entry).run store = (.ok (.ok (value, cursor)), store') →
      store'.Onward entry cursor ∧ cursor.On i ∧
        ∃ content, (Input.contents inputs)[i]? = some content ∧
          entry.position.offset ≤ cursor.position.offset ∧
          cursor.position.offset ≤ content.bytes.length ∧
          p.Captured content entry cursor store store') ∧
    ∀ fault, ((captureText p entry).run store).1 = .error fault ∨
        ((captureBytes p entry).run store).1 = .error fault ∨
        ((capturePositions p entry).run store).1 = .error fault →
      ((p entry).run store).1 = .error fault := by
  have honward := hp.goesOnward
  obtain ⟨⟨hreaches, hgives⟩, hfaults⟩ := honward h
  refine ⟨hfaults, ?_, ?_, ?_⟩
  · intro failure hfailure
    exact hgives _ hfailure
  · intro value cursor store' hrun
    rw [hrun] at hreaches hgives
    have hcursor : store'.Onward entry cursor := hgives _ rfl
    have hentry := h.after hreaches
    obtain ⟨content, hcontent⟩ := hentry.exists_content
    obtain ⟨hon, hle⟩ := hcursor.on_of_ordered hentry.ordered hentry.on
    exact ⟨hcursor, hon, content, hcontent, hle, (hentry.onward hcursor).offset_le hcontent,
      honward.captured h hrun hcontent⟩
  · intro fault hfault
    exact honward.fault_of_capture h hfault

theorem succeed_onward (value : α) : (succeed value).GoesOnward grammar inputs i own :=
  fun _ _ _ => .pure .refl

/-- Two bytes from two pieces are taken; they are no text, since the second is cut short. -/
theorem parse_onward_of_pieces :
    let inputs : List (String × Input) :=
      [("s", .streaming ⟨.supplier, [.deliver [0x61] false, .deliver [0xC3, 0x3B] true]⟩ default)]
    let store := (Session.start ⟨[]⟩ inputs).store
    let entry : Cursor := ⟨some ⟨0, ⟨0, 0⟩⟩, .start⟩
    let cursor : Cursor := ⟨some ⟨0, ⟨2, 1⟩⟩, ⟨2, 1, 3⟩⟩
    let p : Parser (Array UInt8) :=
      sequence (succeed ()) (many (satisfyByte (· ≠ 0x3B))) fun _ bytes => .ok bytes
    let result := (p entry).run store
    ((captureText p entry).run store).1 = .ok (.error ⟨.invalidEncoding ⟨1, 1, 2⟩, entry⟩) ∧
      result.1 = .ok (.ok (#[0x61, 0xC3], cursor)) ∧
        result.2.Onward entry cursor ∧ p.Captured ⟨[0x61, 0xC3, 0x3B], .ended⟩ entry cursor store
          result.2 := by
  intro inputs store entry cursor p result
  have hstands : Stands ⟨[]⟩ inputs 0 store entry :=
    ⟨.refl, Or.inr (Or.inl ⟨0, by decide +kernel, rfl⟩), ⟨_, rfl⟩⟩
  have hp : Composed (GoesOnward ⟨[]⟩ inputs 0 fun _ => False) p :=
    .sequence _ (.custom (succeed_onward ())) (.many (.satisfyByte _))
  have hvalue : result.1 = .ok (.ok (#[0x61, 0xC3], cursor)) := by decide +kernel
  obtain ⟨-, -, hsuccess, -⟩ := parse_onward hp hstands
  obtain ⟨honward, -, content, hcontent, -, -, hcaptured⟩ :=
    hsuccess _ _ result.2 (Prod.ext hvalue rfl)
  have hbytes : (Input.contents inputs)[0]? = some ⟨[0x61, 0xC3, 0x3B], .ended⟩ := by
    decide +kernel
  rw [hbytes] at hcontent
  cases hcontent
  exact ⟨by decide +kernel, hvalue, honward, hcaptured⟩

end Parser
end StreamParse
