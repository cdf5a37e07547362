import StreamParse.Proofs.Span

/-!
# Spans that are no text

The text of a span is checked on a copy of its bytes, while the place of an error is found by
reading scalar values from the start of the span, which sees what comes after the span as well.
Both agree on where the text ends: the longest text of the span stands in the input too, and no
more of the input is read than that text.
-/

namespace StreamParse

open Store

/-- What the text of a span comes to that begins at a cursor: the text itself, or the place that
reading the longest text of the span leads to, after which no other read was made. -/
inductive Cursor.Spells (a : Cursor) (store : Store) (span : List UInt8) :
    Except Error String → Store → Prop
  | text {text : String} : Utf8.encode text.toList = span → Spells a store span (.ok text) store
  | malformed {good : List Char} {found : Cursor} {store' : Store} :
    (∀ text, Utf8.encode text ≠ span) → Utf8.Longest span good →
      Through .runes a store good found store' →
        found.position.offset = a.position.offset + (Utf8.encode good).length →
          Spells a store span (.error (.invalidEncoding found.position)) store'

def Report.ofText : Except Error String → Report
  | .ok found => .text found
  | .error raised => .error raised

namespace Session

variable {grammar : Grammar} {inputs : List (String × Input)} {store : Store} {i : Nat}
  {a b : Cursor} {content : Content}

/-- The text between two cursors on one input is that of the content, or its error is located. -/
theorem Stands.exists_spells
    (ha : Stands grammar inputs i store a) (hb : Stands grammar inputs i store b)
    (hle : a.position.offset ≤ b.position.offset)
    (hcontent : (Input.contents inputs)[i]? = some content) :
    ∃ result store', (a.textUntil b).run store = (.ok result, store') ∧
      a.Spells store (content.between a.position.offset b.position.offset) result store' := by
  obtain ⟨view, hbytes, hsees, hsees'⟩ := ha.exists_sees hb hcontent
  rw [← Content.between_congr hbytes]
  by_cases hvalid : ∃ text, Utf8.encode text =
      view.between a.position.offset b.position.offset
  · obtain ⟨text, htext⟩ := hvalid
    refine ⟨.ok (String.ofList text), store,
      Cursor.run_textUntil_of_valid hsees hsees' hle htext, .text ?_⟩
    rw [String.toList_ofList, htext]
  · have hinvalid := not_exists.1 hvalid
    obtain ⟨good, hgood⟩ := Utf8.exists_longest
      (view.between a.position.offset b.position.offset)
    obtain ⟨found, store', hthrough, hrun, -⟩ :=
      Cursor.run_textUntil_of_invalid hsees hsees' hle hgood (hinvalid good)
    refine ⟨_, store', hrun, .malformed hinvalid hgood hthrough ?_⟩
    rw [hthrough.position_eq, Position.offset_pass]

theorem step_textUntil
    {session : Session} {source stop : String} (hsource : session.registers.get? source = some a)
    (hstop : session.registers.get? stop = some b) {result : Except Error String} {store' : Store}
    (hrun : (a.textUntil b).run session.store = (.ok result, store')) :
    session.step (.textUntil source stop) =
      (Report.ofText result, { session with store := store' }) := by
  simp only [step, Operation.perform, Registers.cursor, hsource, hstop, Action.run_bind,
    Action.run_pure, hrun]
  cases result with
  | error error => rfl
  | ok text => rfl

/-- Malformed spans are located.  For any two cursors that single reads led to from one start, with
offsets in order, the text between them is the text of the bytes between their offsets if these are
valid; otherwise the error points to the place that reading the longest valid beginning of these
bytes by scalar values leads to, whatever comes after them, and nothing else is read to find it.  So
it is with the registers of a session after any operations. -/
theorem texts_located (grammar : Grammar) (inputs : List (String × Input)) :
    (∀ store, (start grammar inputs).store.Reaches store → ∀ i content a b,
      (Input.contents inputs)[i]? = some content → store.Known a → store.Known b →
        store.Onward (Cursor.origin i) a → store.Onward (Cursor.origin i) b →
          a.position.offset ≤ b.position.offset →
            ∃ result store', (a.textUntil b).run store = (.ok result, store') ∧
              a.Spells store (content.between a.position.offset b.position.offset) result
                store') ∧
    ∀ operations : List Operation,
      let session := ((start grammar inputs).run operations).2
      ∀ source stop i content a b, (Input.contents inputs)[i]? = some content →
        session.registers.get? source = some a → session.registers.get? stop = some b →
          session.store.Onward (Cursor.origin i) a → session.store.Onward (Cursor.origin i) b →
            a.position.offset ≤ b.position.offset →
              ∃ result store', session.step (.textUntil source stop) =
                  (Report.ofText result, { session with store := store' }) ∧
                a.Spells session.store (content.between a.position.offset b.position.offset)
                  result store' := by
  constructor
  · intro store hreaches i content a b hcontent ha hb honward honward' hle
    exact (stands_of_onward_origin hreaches ha honward).exists_spells
      (stands_of_onward_origin hreaches hb honward') hle hcontent
  · intro operations session source stop i content a b hcontent hsource hstop honward honward' hle
    obtain ⟨hreaches, hregisters⟩ :=
      run_reaches (fresh_start grammar inputs).known operations
    have ha : session.store.Known a := hregisters.get? hsource
    have hb : session.store.Known b := hregisters.get? hstop
    obtain ⟨result, store', hrun, hspells⟩ :=
      (stands_of_onward_origin hreaches ha honward).exists_spells
        (stands_of_onward_origin hreaches hb honward') hle hcontent
    exact ⟨result, store', step_textUntil hsource hstop hrun, hspells⟩

/-- A sequence lies across two pieces, and one cursor lies within it.  The span up to that cursor
breaks off there, although the sequence can be read as a whole; the span from it on is malformed at
its first byte; and the span over both is a text. -/
theorem texts_located_of_pieces :
    let inputs : List (String × Input) :=
      [("s", .streaming
        ⟨.supplier, [.deliver [0x61, 0xC3] false, .deliver [0xA9, 0x62] true]⟩ default)]
    let operations : List Operation := [.bytes "s" "b" (some 2), .runes "s" "c" (some 2)]
    let session := ((start ⟨[]⟩ inputs).run operations).2
    let b : Cursor := ⟨some ⟨0, ⟨1, 2⟩⟩, ⟨2, 1, 3⟩⟩
    let c : Cursor := ⟨some ⟨0, ⟨2, 1⟩⟩, ⟨3, 1, 3⟩⟩
    session.registers.get? "s" = some (Cursor.origin 0) ∧ session.registers.get? "b" = some b ∧
      session.registers.get? "c" = some c ∧
      (∃ store', session.step (.textUntil "s" "b") =
          (.error (.invalidEncoding ⟨1, 1, 2⟩), { session with store := store' }) ∧
        (Cursor.origin 0).Spells session.store [0x61, 0xC3] (.error (.invalidEncoding ⟨1, 1, 2⟩))
          store') ∧
      (∃ store', session.step (.textUntil "b" "c") =
          (.error (.invalidEncoding ⟨2, 1, 3⟩), { session with store := store' }) ∧
        b.Spells session.store [0xA9] (.error (.invalidEncoding ⟨2, 1, 3⟩)) store') ∧
      (∃ store', session.step (.textUntil "s" "c") =
          (.text "aé", { session with store := store' }) ∧
        (Cursor.origin 0).Spells session.store [0x61, 0xC3, 0xA9] (.ok "aé") store') := by
  intro inputs operations session b c
  have hs : session.registers.get? "s" = some (Cursor.origin 0) := by decide +kernel
  have hb : session.registers.get? "b" = some b := by decide +kernel
  have hc : session.registers.get? "c" = some c := by decide +kernel
  have hcontent : (Input.contents inputs)[0]? = some ⟨[0x61, 0xC3, 0xA9, 0x62], .ended⟩ := rfl
  obtain ⟨hreaches, hregisters⟩ := run_reaches (fresh_start ⟨[]⟩ inputs).known operations
  -- There is one input only, so every cursor with input comes from its start.
  have honward : ∀ {name cursor}, session.registers.get? name = some cursor → cursor ≠ default →
      session.store.Onward (Cursor.origin 0) cursor := by
    intro name cursor hget hne
    rcases onward_origin_of_known hreaches (hregisters.get? hget) with hdefault | ⟨i, hi, honward⟩
    · exact absurd hdefault hne
    · have hone : session.store.chains.size = 1 := by decide +kernel
      obtain rfl : i = 0 := Nat.lt_one_iff.1 (hi.trans_eq hone)
      exact honward
  have hlocated : ∀ {source stop first last} answer, session.registers.get? source = some first →
      session.registers.get? stop = some last → first ≠ default → last ≠ default →
        first.position.offset ≤ last.position.offset →
          ((first.textUntil last).run session.store).1 = .ok answer →
            ∃ store', session.step (.textUntil source stop) =
                (Report.ofText answer, { session with store := store' }) ∧
              first.Spells session.store
                (Content.between ⟨[0x61, 0xC3, 0xA9, 0x62], .ended⟩ first.position.offset
                  last.position.offset) answer store' := by
    intro source stop first last answer hsource hstop hne hne' hle hanswer
    obtain ⟨result, store', hrun, hspells⟩ := (texts_located ⟨[]⟩ inputs).1 session.store hreaches 0
      _ first last hcontent (hregisters.get? hsource) (hregisters.get? hstop) (honward hsource hne)
      (honward hstop hne') hle
    obtain rfl : result = answer := Except.ok.inj ((congrArg Prod.fst hrun).symm.trans hanswer)
    exact ⟨store', step_textUntil hsource hstop hrun, hspells⟩
  exact ⟨hs, hb, hc,
    hlocated (.error (.invalidEncoding ⟨1, 1, 2⟩)) hs hb (by decide) (by decide) (by decide)
      (by decide +kernel),
    hlocated (.error (.invalidEncoding ⟨2, 1, 3⟩)) hb hc (by decide) (by decide) (by decide)
      (by decide +kernel),
    hlocated (.ok "aé") hs hc (by decide) (by decide) (by decide) (by decide +kernel)⟩

end Session
end StreamParse
