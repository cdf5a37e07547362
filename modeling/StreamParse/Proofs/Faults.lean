import StreamParse.Proofs.Layout
import StreamParse.Proofs.Parser.Composed

/-!
# The faults that occur

Reading never meets an inconsistency.  A chain holds what its cursors rely on, so all that can go
wrong is what the library documents: reading where there is no input, asking for a span that is
none, and a source that claims more bytes than there was room for.  Descriptions of parsers may
besides use a name that stands for nothing, or rules that have no end.

As long as no content comes near the limit of offsets, the components of all positions are
addresses as well.
-/

namespace StreamParse

/-- The faults that are documented. -/
inductive Fault.Documented : Fault → Prop
  | detached : Documented .detached
  | spanReversed : Documented .spanReversed
  | spanUnreachable : Documented .spanUnreachable
  | overclaimed (conduct : Conduct) : Documented (.overclaimed conduct)

/-- The faults of descriptions: they use a name without meaning, or have no end. -/
inductive Fault.OfNames : Fault → Prop
  | undefined (name : String) : OfNames (.undefined name)
  | endless : OfNames .endless

/-! ## Positions -/

namespace Position

/-- Every component is an address. -/
structure Fits (p : Position) : Prop where
  offset : p.offset < Parser.offsetLimit
  line : p.line < Parser.offsetLimit
  column : p.column < Parser.offsetLimit

/-- Lines and columns are counted from one, and it takes a byte to open a line or a column. -/
structure Counted (p : Position) : Prop where
  line_pos : 0 < p.line
  column_pos : 0 < p.column
  le : p.line + p.column ≤ p.offset + 2

theorem counted_start : Counted .start := ⟨by decide, by decide, by decide⟩

theorem Counted.advance {p : Position} (h : p.Counted) {width : Nat} (hwidth : 0 < width)
    (unit : Nat) : (p.advance width unit).Counted := by
  obtain ⟨hline, hcolumn, hle⟩ := h
  rw [Position.advance]
  split
  · constructor
    · exact Nat.succ_pos _
    · exact Nat.one_pos
    · simp only
      omega
  · constructor
    · exact hline
    · exact Nat.succ_pos _
    · simp only
      omega

theorem Counted.fits {p : Position} (h : p.Counted) {length : Nat} (hle : p.offset ≤ length)
    (hlength : length < Parser.offsetLimit - 2) : p.Fits := by
  obtain ⟨hline, hcolumn, hsum⟩ := h
  constructor <;> omega

end Position

namespace Session

open Store

variable {grammar : Grammar} {inputs : List (String × Input)} {store : Store}

theorem counted_of_known
    (hreaches : (start grammar inputs).store.Reaches store) {cursor : Cursor}
    (h : store.Known cursor) : cursor.position.Counted := by
  have hbase : ∀ cursor, (start grammar inputs).store.Known cursor →
      cursor.position.Counted := by
    intro cursor hknown
    rcases eq_origin_of_known hknown with rfl | ⟨i, -, rfl⟩
    · exact Position.counted_start
    · exact Position.counted_start
  refine hreaches.forall_known (P := fun _ cursor => cursor.position.Counted) hbase
    (fun _ hcounted => hcounted) ?_ cursor h
  intro α r store cursor unit next hr _ hcounted hread
  obtain ⟨i, -, -, hposition⟩ := Cursor.advance_of_read hread
  rw [hposition]
  exact hcounted.advance (hr.width_pos unit) _

/-- Every known position is made of addresses, if no content comes near the limit of offsets. -/
theorem fits_of_known
    (hshort : ∀ content ∈ Input.contents inputs,
      content.bytes.length < Parser.offsetLimit - 2)
    (hreaches : (start grammar inputs).store.Reaches store) {cursor : Cursor}
    (h : store.Known cursor) : cursor.position.Fits := by
  have hcounted := counted_of_known hreaches h
  rcases onward_origin_of_known hreaches h with rfl | ⟨i, hi, honward⟩
  · exact hcounted.fits (Nat.le_refl 0) (by decide)
  · have horigin : Stands grammar inputs i store (Cursor.origin i) :=
      ⟨hreaches, Or.inr (Or.inl ⟨i, hi, rfl⟩), ⟨_, rfl⟩⟩
    obtain ⟨content, hcontent⟩ := horigin.exists_content
    exact hcounted.fits ((horigin.onward honward).offset_le hcontent)
      (hshort content (List.mem_of_getElem? hcontent))

/-! ## Reads and spans -/

theorem documented_of_read
    {α : Type} {r : Reading α} (hr : r.Regular)
    (hreaches : (start grammar inputs).store.Reaches store) {cursor : Cursor}
    (h : store.Known cursor) {fault : Fault}
    (hfault : ((cursor.read r).run store).1 = .error fault) : fault.Documented := by
  obtain ⟨anchor, position⟩ := cursor
  cases anchor with
  | none =>
      cases hfault
      exact .detached
  | some anchor =>
      have hstands : Stands grammar inputs anchor.chain store ⟨some anchor, position⟩ :=
        ⟨hreaches, h, anchor.place, rfl⟩
      obtain ⟨-, view, -, -, hsees, -⟩ := hstands.exists_view hstands
      obtain ⟨account⟩ := hr.account
      obtain ⟨conduct, -, rfl⟩ := Cursor.overclaimed_of_read account hsees hfault
      exact .overclaimed conduct

theorem documented_of_bytesUntil
    (hreaches : (start grammar inputs).store.Reaches store) {first last : Cursor}
    (hfirst : store.Known first) (hlast : store.Known last) {fault : Fault}
    (hfault : ((first.bytesUntil last).run store).1 = .error fault) : fault.Documented := by
  have hspans := Cursor.spans_bytesUntil store first last
  generalize hrun : (first.bytesUntil last).run store = result at hspans hfault
  cases hspans with
  | reversed =>
      cases hfault
      exact .spanReversed
  | detached =>
      cases hfault
      exact .detached
  | unreachable =>
      cases hfault
      exact .spanUnreachable
  | within result hon hon' hle =>
      have hstands : Stands grammar inputs _ store first := ⟨hreaches, hfirst, hon⟩
      obtain ⟨-, view, -, -, hsees, hsees'⟩ := hstands.exists_view ⟨hreaches, hlast, hon'⟩
      rw [Cursor.run_bytesUntil hsees hsees' hle] at hrun
      cases hrun
      cases hfault

theorem excuses_documented
    (hshort : ∀ content ∈ Input.contents inputs,
      content.bytes.length < Parser.offsetLimit - 2)
    (grammar : Grammar) : (start grammar inputs).store.Excuses Fault.Documented where
  bytes _ _ h :=
    ⟨Cursor.leads_read Reading.usual_bytes h.known,
      fun _ => documented_of_read Reading.regular_bytes h.reaches h.known⟩
  runes _ _ h :=
    ⟨Cursor.leads_read Reading.usual_runes h.known,
      fun _ => documented_of_read Reading.regular_runes h.reaches h.known⟩
  span h hstop _ := documented_of_bytesUntil h.reaches h.known hstop
  offset h hlimit :=
    absurd (fits_of_known hshort h.reaches h.known).offset (Nat.not_lt.2 hlimit)

end Session

/-! ## Sessions -/

/-- Nothing undocumented happens at a cursor.  It stands within its chunk, its position is made of
addresses, and reads from it and spans from it to known cursors end in documented faults only. -/
structure Store.Safe (store : Store) (cursor : Cursor) : Prop where
  places : store.Places cursor
  fits : cursor.position.Fits
  byte : ∀ fault, (cursor.byte.run store).1 = .error fault → fault.Documented
  rune : ∀ fault, (cursor.rune.run store).1 = .error fault → fault.Documented
  bytesUntil : ∀ stop, store.Known stop → ∀ fault,
    ((cursor.bytesUntil stop).run store).1 = .error fault → fault.Documented
  textUntil : ∀ stop, store.Known stop → ∀ fault,
    ((cursor.textUntil stop).run store).1 = .error fault → fault.Documented

namespace Session

variable {grammar : Grammar} {inputs : List (String × Input)} {store : Store}

theorem safe_of_known
    (hshort : ∀ content ∈ Input.contents inputs,
      content.bytes.length < Parser.offsetLimit - 2)
    (hreaches : (start grammar inputs).store.Reaches store) {cursor : Cursor}
    (h : store.Known cursor) : store.Safe cursor := by
  have hexcuses := (excuses_documented hshort grammar).after hreaches
  constructor
  · exact places_of_known hreaches h
  · exact fits_of_known hshort hreaches h
  · exact (hexcuses.bytes (.start h)).2
  · exact (hexcuses.runes (.start h)).2
  · intro stop hstop
    exact hexcuses.span (.start h) hstop
  · intro stop hstop
    exact (hexcuses.runes.textUntil (hexcuses.span (.start h) hstop) (.start h)).2

/-- Only documented faults occur.  Whatever was read before, nothing undocumented happens at a known
cursor, and a parser started there, built from those of the library and from others that may jump
to any known cursor, adds no faults but those of these others.  So whatever operations a session
runs, over any sources, each of them that ends in a fault ends in a documented one, or its
description uses a name without meaning or has no end. -/
theorem faults_documented
    (grammar : Grammar)
    (hshort : ∀ content ∈ Input.contents inputs,
      content.bytes.length < Parser.offsetLimit - 2) :
    (∀ store, (start grammar inputs).store.Reaches store → ∀ cursor, store.Known cursor →
      store.Safe cursor ∧
        ∀ (own : Fault → Prop) {α : Type} (p : Parser α),
          Parser.Composed
            (Parser.Behaves store fun fault => fault.Documented ∨ own fault) p →
          ∀ fault, ((p cursor).run store).1 = .error fault → fault.Documented ∨ own fault) ∧
    ∀ operations fault requests,
      (.fault fault, requests) ∈ ((start grammar inputs).run operations).1 →
        fault.Documented ∨ fault.OfNames := by
  have hexcuses := excuses_documented hshort grammar
  constructor
  · intro store hreaches cursor hknown
    refine ⟨safe_of_known hshort hreaches hknown, ?_⟩
    intro own α p hp
    have hparser := hp.behaves ((hexcuses.after hreaches).mono fun _ => Or.inl)
    exact (hparser (.start hknown)).2
  · intro operations fault requests hmem
    exact fault_of_run (fun name => Or.inr (.undefined name)) (Or.inr .endless)
      (hexcuses.mono fun _ => Or.inl) .refl (fresh_start grammar inputs).known hmem

/-- Nothing is read from a cursor without input, no span goes back, and a source overclaims. -/
theorem faults_documented_of_overclaim :
    let inputs : List (String × Input) :=
      [("s", .streaming ⟨.supplier, [.deliver [0x61] false, .overclaim 1]⟩ default),
        ("d", .detached)]
    let operations : List Operation :=
      [.byte "d" "d", .byte "s" "t", .bytesUntil "t" "s", .byte "t" "t", .byte "u" "u"]
    let reports := ((start ⟨[]⟩ inputs).run operations).1
    (∀ content ∈ Input.contents inputs, content.bytes.length < Parser.offsetLimit - 2) ∧
      (reports.filterMap fun
        | (.fault fault, _) => some fault
        | _ => none) =
          [.detached, .spanReversed, .overclaimed .supplier, .undefined "u"] ∧
        ∀ fault requests, (.fault fault, requests) ∈ reports →
          fault.Documented ∨ fault.OfNames := by
  intro inputs operations
  have hshort : ∀ content ∈ Input.contents inputs,
      content.bytes.length < Parser.offsetLimit - 2 := by
    decide +kernel
  exact ⟨hshort, by decide +kernel, (faults_documented ⟨[]⟩ hshort).2 operations⟩

end Session
end StreamParse
