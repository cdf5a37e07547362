import StreamParse.Proofs.Canonical
import StreamParse.Proofs.Faults
import Mathlib.Data.List.DropRight

/-!
# Positions keep account of what was read

A cursor may be reached by bytes, by scalar values or by both in turn.  Whichever it was, its offset
and its line are decided by the input before it: a line feed never occurs within a sequence of
several bytes, so scalar values open exactly the lines that their bytes would.  Its column counts
what was read since the last line feed, so it is where the way shows.

Lines, columns and the offset are bound to each other.  It takes a byte to open a line or a column,
so as long as offsets are addresses with two to spare, lines and columns are addresses too.
-/

namespace StreamParse

/-! ## Line feeds in encodings -/

namespace Utf8

/-- The byte of a line feed occurs in no encoding but its own. -/
theorem lineFeed_of_mem_utf8EncodeChar {c : Char} (h : 0x0A ∈ String.utf8EncodeChar c) :
    c.toNat = Position.lineFeed := by
  have hten : (0x0A : UInt8).toNat = Position.lineFeed := rfl
  have hlt : Position.lineFeed < 0x80 := by decide
  rcases utf8EncodeChar_cases c with
    ⟨-, b₀, henc, h₀⟩ | ⟨hv, -, b₀, b₁, henc, h₀, h₁⟩ | ⟨hv, -, b₀, b₁, b₂, henc, h₀, h₁, h₂⟩ |
    ⟨hv, -, b₀, b₁, b₂, b₃, henc, h₀, h₁, h₂, h₃⟩
  all_goals rw [henc] at h
  · rw [List.mem_singleton.1 h] at hten
    exact h₀.symm.trans hten
  -- In a longer encoding every byte has its highest bit set.
  all_goals
    exfalso
    simp only [List.mem_cons, List.not_mem_nil, or_false] at h
  · rcases h with rfl | rfl <;> omega
  · rcases h with rfl | rfl | rfl <;> omega
  · rcases h with rfl | rfl | rfl | rfl <;> omega

end Utf8

/-! ## Items -/

/-- What a single read gives. -/
inductive Item where
  | byte (value : UInt8)
  | rune (value : Char)

namespace Item

def grain : Item → Grain
  | .byte _ => .byte
  | .rune _ => .rune

/-- The code by which line feeds are known. -/
def code : Item → Nat
  | .byte value => value.toNat
  | .rune value => value.toNat

def bytes : Item → List UInt8
  | .byte value => [value]
  | .rune value => String.utf8EncodeChar value

theorem eq_of_code {a b : Item} (hgrain : a.grain = b.grain) (hcode : a.code = b.code) :
    a = b := by
  cases a with
  | byte value =>
      cases b with
      | byte value' => exact congrArg Item.byte (UInt8.toNat_inj.1 hcode)
      | rune value' => cases hgrain
  | rune value =>
      cases b with
      | byte value' => cases hgrain
      | rune value' => exact congrArg Item.rune (Char.ext (UInt32.toNat_inj.1 hcode))

theorem length_bytes_pos (item : Item) : 0 < item.bytes.length := by
  cases item with
  | byte value => exact Nat.one_pos
  | rune value =>
      rw [bytes, String.length_utf8EncodeChar]
      exact value.utf8Size_pos

theorem bytes_of_lineFeed {item : Item} (h : item.code = Position.lineFeed) :
    item.bytes = [0x0A] := by
  cases item with
  | byte value =>
      have hvalue : value = 0x0A := UInt8.toNat_inj.1 h
      rw [hvalue]
      rfl
  | rune value =>
      have hvalue : value = '\n' := Char.ext (UInt32.toNat_inj.1 h)
      rw [hvalue]
      rfl

theorem lineFeed_of_mem_bytes {item : Item} (h : 0x0A ∈ item.bytes) :
    item.code = Position.lineFeed := by
  cases item with
  | byte value =>
      rw [code, ← List.mem_singleton.1 h]
      rfl
  | rune value => exact Utf8.lineFeed_of_mem_utf8EncodeChar h

theorem count_bytes (item : Item) :
    item.bytes.count 0x0A = if item.code = Position.lineFeed then 1 else 0 := by
  split
  · next h => rw [bytes_of_lineFeed h, List.count_singleton_self]
  · next h => exact List.count_eq_zero.2 fun hmem => h (lineFeed_of_mem_bytes hmem)

/-! ### The line that items end in -/

/-- The items after the last line feed. -/
def currentLine (items : List Item) : List Item :=
  items.rtakeWhile (·.code ≠ Position.lineFeed)

theorem currentLine_concat (items : List Item) (item : Item) :
    currentLine (items ++ [item]) =
      if item.code = Position.lineFeed then [] else currentLine items ++ [item] := by
  rw [currentLine, List.rtakeWhile_concat]
  by_cases h : item.code = Position.lineFeed <;> simp [h, currentLine]

end Item

/-- The bytes after the last line feed. -/
def Utf8.currentLine (bytes : List UInt8) : List UInt8 :=
  bytes.rtakeWhile (· ≠ 0x0A)

theorem Utf8.currentLine_append_of_not_mem
    (bytes : List UInt8) {more : List UInt8} (h : 0x0A ∉ more) :
    currentLine (bytes ++ more) = currentLine bytes ++ more := by
  induction more using List.reverseRecOn with
  | nil => rw [List.append_nil, List.append_nil]
  | append_singleton more b ih =>
      have hmore : 0x0A ∉ more := fun hmem => h (List.mem_append_left _ hmem)
      have hb : b ≠ 0x0A := by
        rintro rfl
        exact h (List.mem_append_right _ (List.mem_singleton_self _))
      rw [← List.append_assoc, currentLine, List.rtakeWhile_concat, if_pos (decide_eq_true hb),
        ← currentLine, ih hmore, List.append_assoc]

theorem Item.bytes_currentLine (items : List Item) :
    (currentLine items).flatMap bytes = Utf8.currentLine (items.flatMap bytes) := by
  induction items using List.reverseRecOn with
  | nil => rfl
  | append_singleton items item ih =>
      rw [currentLine_concat, List.flatMap_append, List.flatMap_singleton]
      split
      · next h =>
          rw [bytes_of_lineFeed h, Utf8.currentLine, List.rtakeWhile_concat]
          rfl
      · next h =>
          rw [Utf8.currentLine_append_of_not_mem _ fun hmem => h (lineFeed_of_mem_bytes hmem),
            List.flatMap_append, List.flatMap_singleton, ih]

theorem Item.length_flatMap_of_bytes
    {items : List Item} (h : ∀ item ∈ items, item.grain = .byte) :
    (items.flatMap bytes).length = items.length := by
  induction items with
  | nil => rfl
  | cons item items ih =>
      obtain ⟨hitem, hitems⟩ := List.forall_mem_cons.1 h
      cases item with
      | byte value => rw [List.flatMap_cons, List.length_append, ih hitems, List.length_cons,
          bytes, List.length_singleton, Nat.add_comm]
      | rune value => cases hitem

theorem Item.exists_text_of_runes
    {items : List Item} (h : ∀ item ∈ items, item.grain = .rune) :
    ∃ text, Utf8.encode text = items.flatMap bytes ∧ text.length = items.length := by
  induction items with
  | nil => exact ⟨[], rfl, rfl⟩
  | cons item items ih =>
      obtain ⟨hitem, hitems⟩ := List.forall_mem_cons.1 h
      obtain ⟨text, hencode, hlength⟩ := ih hitems
      cases item with
      | byte value => cases hitem
      | rune value =>
          refine ⟨value :: text, ?_, congrArg Nat.succ hlength⟩
          rw [Utf8.encode_cons, hencode, List.flatMap_cons, bytes]

/-! ## Positions after items -/

namespace Position

/-- The position after items that were read from the start of an input. -/
def after (items : List Item) : Position :=
  items.foldl (fun p item => p.advance item.bytes.length item.code) .start

theorem after_concat (items : List Item) (item : Item) :
    after (items ++ [item]) = (after items).advance item.bytes.length item.code := by
  rw [after, List.foldl_concat, ← after]

theorem offset_after (items : List Item) :
    (after items).offset = (items.flatMap Item.bytes).length := by
  induction items using List.reverseRecOn with
  | nil => rfl
  | append_singleton items item ih =>
      rw [after_concat, offset_advance, ih, List.flatMap_append, List.length_append,
        List.flatMap_singleton]

theorem line_after (items : List Item) :
    (after items).line = 1 + (items.flatMap Item.bytes).count 0x0A := by
  induction items using List.reverseRecOn with
  | nil => rfl
  | append_singleton items item ih =>
      rw [after_concat, List.flatMap_append, List.count_append, List.flatMap_singleton,
        Item.count_bytes, advance, ← Nat.add_assoc, ← ih]
      split <;> rfl

theorem column_after (items : List Item) :
    (after items).column = 1 + (Item.currentLine items).length := by
  induction items using List.reverseRecOn with
  | nil => rfl
  | append_singleton items item ih =>
      rw [after_concat, advance, Item.currentLine_concat]
      split
      · rfl
      · rw [List.length_append, List.length_singleton, ← Nat.add_assoc, ← ih]

theorem counted_after (items : List Item) : (after items).Counted := by
  induction items using List.reverseRecOn with
  | nil => exact counted_start
  | append_singleton items item ih =>
      rw [after_concat]
      exact ih.advance item.length_bytes_pos item.code

/-- A position keeps account of the items that were read from a content up to it. -/
structure Tracks (p : Position) (content : Content) (items : List Item) : Prop where
  consumed : items.flatMap Item.bytes = content.bytes.take p.offset
  offset_le : p.offset ≤ content.bytes.length
  line : p.line = 1 + (content.bytes.take p.offset).count 0x0A
  column : p.column = 1 + (Item.currentLine items).length
  column_of_bytes : (∀ item ∈ Item.currentLine items, item.grain = .byte) →
    p.column = 1 + (Utf8.currentLine (content.bytes.take p.offset)).length
  column_of_runes : (∀ item ∈ Item.currentLine items, item.grain = .rune) →
    ∃ text, Utf8.encode text = Utf8.currentLine (content.bytes.take p.offset) ∧
      p.column = 1 + text.length
  sum_le : p.line + p.column ≤ p.offset + 2
  fits : content.bytes.length ≤ Parser.offsetLimit - 3 → p.Fits

theorem tracks_after {content : Content} {items : List Item}
    (h : items.flatMap Item.bytes <+: content.bytes) : (after items).Tracks content items := by
  have hconsumed : items.flatMap Item.bytes = content.bytes.take (after items).offset := by
    rw [offset_after]
    exact List.prefix_iff_eq_take.1 h
  have hle : (after items).offset ≤ content.bytes.length := by
    rw [offset_after]
    exact h.length_le
  have hline := Item.bytes_currentLine items
  constructor
  · exact hconsumed
  · exact hle
  · rw [← hconsumed]
    exact line_after items
  · exact column_after items
  · intro hbytes
    rw [← hconsumed, ← hline, Item.length_flatMap_of_bytes hbytes]
    exact column_after items
  · intro hrunes
    obtain ⟨text, hencode, hlength⟩ := Item.exists_text_of_runes hrunes
    refine ⟨text, ?_, ?_⟩
    · rw [hencode, hline, hconsumed]
    · rw [hlength]
      exact column_after items
  · exact (counted_after items).le
  · intro hshort
    have hlimit : 3 ≤ Parser.offsetLimit := by decide
    exact (counted_after items).fits hle (by omega)

/-- A position comes before another, and does not lie in a later line. -/
structure Precedes (p q : Position) : Prop where
  offset : p.offset < q.offset
  order : compare p q = .lt
  line : p.line ≤ q.line

theorem precedes_advance (p : Position) {width : Nat} (hwidth : 0 < width) (unit : Nat) :
    p.Precedes (p.advance width unit) := by
  have hlt : p.offset < (p.advance width unit).offset := by
    rw [offset_advance]
    exact Nat.lt_add_of_pos_right hwidth
  constructor
  · exact hlt
  · change (compare p.offset (p.advance width unit).offset).then _ = .lt
    rw [Nat.compare_eq_lt.2 hlt]
    rfl
  · rw [advance]
    split
    · exact Nat.le_succ _
    · exact Nat.le_refl _

end Position

/-! ## Reads as items -/

/-- The units of a reading as items, of which the content has exactly those that are found. -/
structure Reading.Itemized {α : Type} (r : Reading α) where
  account : r.Account
  item : α → Item
  grain : ∀ unit, (item unit).grain = r.grain
  code : ∀ unit, (item unit).code = r.code unit
  width : ∀ unit, (item unit).bytes.length = r.width unit
  found : ∀ {content : Content} {offset : Nat} {unit : α},
    account.find content offset = .ok (.ok unit) →
      (item unit).bytes <+: content.bytes.drop offset

namespace Content

theorem isPrefix_of_byte
    {content : Content} {offset : Nat} {b : UInt8} (h : content.byte offset = .ok (.ok b)) :
    [b] <+: content.bytes.drop offset := by
  have hlt : offset < content.bytes.length := byte_within h
  rw [byte, List.getElem?_eq_getElem hlt] at h
  cases h
  rw [List.drop_eq_getElem_cons hlt]
  exact ⟨_, rfl⟩

theorem isPrefix_of_rune
    {content : Content} {offset : Nat} {c : Char} (h : content.rune offset = .ok (.ok c)) :
    String.utf8EncodeChar c <+: content.bytes.drop offset :=
  Utf8.classify_eq_scalar_iff.1 (classify_of_rune h)

end Content

def Reading.Itemized.bytes : Reading.bytes.Itemized where
  account := .bytes
  item := .byte
  grain _ := rfl
  code _ := rfl
  width _ := rfl
  found := Content.isPrefix_of_byte

def Reading.Itemized.runes : Reading.runes.Itemized where
  account := .runes
  item := .rune
  grain _ := rfl
  code _ := rfl
  width := String.length_utf8EncodeChar
  found := Content.isPrefix_of_rune

/-- If a read gave a unit, then it gave an item that the content of its input has there, and led to
the position after it. -/
def Attempt.Finds (contents : List Content) (attempt : Attempt) : Prop :=
  ∀ code next, attempt.outcome = .ok (.ok (code, next)) →
    ∃ i content, ∃ item : Item, attempt.cursor.On i ∧ next.On i ∧ contents[i]? = some content ∧
      item.grain = attempt.grain ∧ item.code = code ∧
        item.bytes <+: content.bytes.drop attempt.cursor.position.offset ∧
          next.position = attempt.cursor.position.advance item.bytes.length item.code

namespace Store

variable {α : Type} {r : Reading α} {store : Store} {contents : List Content} {cursor : Cursor}

theorem find_of_read
    (account : r.Account) {i : Nat} {view : Content} (hsees : store.Sees i (some view) cursor)
    {unit : α} {next : Cursor} (h : ((cursor.read r).run store).1 = .ok (.ok (unit, next))) :
    account.find view cursor.position.offset = .ok (.ok unit) := by
  have hcomes := account.comes_read hsees
  rw [Reading.Account.reference] at hcomes
  generalize account.find view cursor.position.offset = found at hcomes ⊢
  generalize (cursor.read r).run store = result at hcomes h
  rcases found with fault | halt | unit'
  · cases hcomes
    cases h
  · cases hcomes
    cases h
  · obtain ⟨next', store', rfl, -⟩ := hcomes.exists_of_success
    cases h
    rfl

theorem finds_read
    (itemized : r.Itemized) (hsees : store.SeesIn contents cursor) :
    Attempt.Finds contents ⟨r.grain, cursor,
      ((cursor.read r).run store).1.map (·.map fun (unit, next) => (r.code unit, next))⟩ := by
  intro code next houtcome
  rcases hread : ((cursor.read r).run store).1 with fault | error | ⟨unit, next'⟩
  · simp [hread, Except.map] at houtcome
  · simp [hread, Except.map] at houtcome
  · simp only [hread, Except.map] at houtcome
    cases houtcome
    obtain ⟨i, ⟨place, hplace⟩, hnext, hposition⟩ := Cursor.advance_of_read hread
    obtain ⟨content, hcontent, hview⟩ := hsees _ hplace
    refine ⟨i, content, itemized.item unit, ⟨place, hplace⟩, hnext, hcontent,
      itemized.grain unit, itemized.code unit, ?_, ?_⟩
    · rcases hview with hview | hview
      · exact itemized.found (find_of_read itemized.account hview hread)
      · rw [← content.bytes_settled]
        exact itemized.found (find_of_read itemized.account hview hread)
    · rw [itemized.width, itemized.code]
      exact hposition

/-- Reads that were made lead from one cursor to the other, one after the other, and gave these
items. -/
inductive Takes (store : Store) (start : Cursor) : List Item → Cursor → Prop
  | refl : Takes store start [] start
  | step {items : List Item} {cursor next : Cursor} (item : Item) :
    Takes store start items cursor →
      ⟨item.grain, cursor, .ok (.ok (item.code, next))⟩ ∈ store.reads →
        Takes store start (items ++ [item]) next

theorem Takes.mono
    {store' : Store} {start : Cursor} {items : List Item} (h : store.Takes start items cursor)
    (hreads : ∀ attempt ∈ store.reads, attempt ∈ store'.reads) :
    store'.Takes start items cursor := by
  induction h with
  | refl => exact .refl
  | step item _ hmem ih => exact .step item ih (hreads _ hmem)

theorem Takes.read
    {start : Cursor} {items : List Item} (itemized : r.Itemized)
    (h : store.Takes start items cursor) {unit : α} {next : Cursor}
    (hread : ((cursor.read r).run store).1 = .ok (.ok (unit, next))) :
    Takes ((cursor.read r).run store).2 start (items ++ [itemized.item unit]) next := by
  have hreads : ((cursor.read r).run store).2.reads =
      store.reads.push ⟨r.grain, cursor, .ok (.ok (r.code unit, next))⟩ := by
    rw [reads_read, hread]
    rfl
  refine .step _ (h.mono ?_) ?_
  · intro attempt hmem
    rw [hreads]
    exact Array.mem_push_of_mem _ hmem
  · rw [hreads, itemized.grain, itemized.code]
    exact Array.mem_push_self

/-- The items that were read from the start of an input are what its content begins with. -/
theorem Takes.prefix_of_finds
    {i : Nat} {content : Content} {items : List Item}
    (h : store.Takes (Cursor.origin i) items cursor)
    (hfinds : ∀ attempt ∈ store.reads, attempt.Finds contents)
    (hcontent : contents[i]? = some content) :
    cursor.On i ∧ cursor.position = Position.after items ∧
      items.flatMap Item.bytes <+: content.bytes := by
  induction h with
  | refl => exact ⟨⟨⟨0, 0⟩, rfl⟩, rfl, List.nil_prefix⟩
  | @step items cursor next item _ hmem ih =>
      obtain ⟨⟨place, hplace⟩, hposition, hprefix⟩ := ih
      obtain ⟨j, content', item', ⟨place', hplace'⟩, hnext, hcontent', hgrain, hcode, hitem,
        hafter⟩ := hfinds _ hmem item.code next rfl
      rw [hplace] at hplace'
      cases hplace'
      rw [hcontent] at hcontent'
      cases hcontent'
      cases Item.eq_of_code hgrain hcode
      refine ⟨hnext, ?_, ?_⟩
      · rw [hafter, hposition, Position.after_concat]
      · obtain ⟨more, hmore⟩ := hprefix
        rw [List.flatMap_append, List.flatMap_singleton, ← hmore, List.prefix_append_right_inj]
        rwa [hposition, Position.offset_after, ← hmore, List.drop_left] at hitem

theorem Onward.exists_takes
    {start : Cursor} (h : store.Onward start cursor)
    (hfinds : ∀ attempt ∈ store.reads, attempt.Finds contents) :
    ∃ items, store.Takes start items cursor := by
  induction h with
  | refl => exact ⟨[], .refl⟩
  | @step cursor next grain code _ hmem ih =>
      obtain ⟨items, htakes⟩ := ih
      obtain ⟨-, -, item, -, -, -, hgrain, hcode, -⟩ := hfinds _ hmem code next rfl
      refine ⟨items ++ [item], .step item htakes ?_⟩
      rwa [hgrain, hcode]

end Store

/-! ## Sessions -/

namespace Session

open Store

variable {grammar : Grammar} {inputs : List (String × Input)} {store : Store} {cursor : Cursor}

/-- All reads of a session give items that the contents of its inputs have. -/
theorem finds_of_reaches
    (hreaches : (start grammar inputs).store.Reaches store) :
    ∀ attempt ∈ store.reads, attempt.Finds (Input.contents inputs) := by
  refine forall_reads hreaches ?_ ?_
  · intro store cursor hreaches hknown
    exact finds_read .bytes (((fresh_start grammar inputs).holds.reaches hreaches).sees hknown)
  · intro store cursor hreaches hknown
    exact finds_read .runes (((fresh_start grammar inputs).holds.reaches hreaches).sees hknown)

theorem tracks_of_takes
    (hreaches : (start grammar inputs).store.Reaches store) {i : Nat} {content : Content}
    (hcontent : (Input.contents inputs)[i]? = some content) {items : List Item}
    (h : store.Takes (Cursor.origin i) items cursor) : cursor.position.Tracks content items := by
  obtain ⟨-, hposition, hprefix⟩ := h.prefix_of_finds (finds_of_reaches hreaches) hcontent
  rw [hposition]
  exact Position.tracks_after hprefix

/-- Every known cursor was reached by reading items from the start of its input, if it has one. -/
theorem exists_takes_of_known
    (hreaches : (start grammar inputs).store.Reaches store) (h : store.Known cursor) :
    cursor = default ∨ ∃ i content items, (Input.contents inputs)[i]? = some content ∧
      store.Takes (Cursor.origin i) items cursor := by
  rcases onward_origin_of_known hreaches h with hdefault | ⟨i, -, honward⟩
  · exact Or.inl hdefault
  · obtain ⟨content, hcontent⟩ := (stands_of_onward_origin hreaches h honward).exists_content
    obtain ⟨items, htakes⟩ := honward.exists_takes (finds_of_reaches hreaches)
    exact Or.inr ⟨i, content, items, hcontent, htakes⟩

end Session

theorem Cursor.precedes_of_read
    {α : Type} {r : Reading α} (hr : r.Regular) {store : Store} {cursor next : Cursor} {unit : α}
    (h : ((cursor.read r).run store).1 = .ok (.ok (unit, next))) :
    cursor.position.Precedes next.position := by
  obtain ⟨-, -, -, hposition⟩ := advance_of_read h
  rw [hposition]
  exact cursor.position.precedes_advance (hr.width_pos unit) (r.code unit)

namespace Session

open Store

/-- Positions keep account of what was read.  Whatever bytes and scalar values were read in turn
from the start of an input, its content begins with them, the line counts the line feeds among their
bytes, the column counts what was read since the last one, and no component outgrows an address.
Every read goes on by the unit that it gives, to a greater offset, a greater position and no earlier
line.  All known cursors were reached in this way, and so were the registers of a session after any
operations. -/
theorem positions_track (grammar : Grammar) (inputs : List (String × Input)) :
    (∀ store, (start grammar inputs).store.Reaches store →
      (∀ i content items cursor, (Input.contents inputs)[i]? = some content →
        store.Takes (Cursor.origin i) items cursor → cursor.position.Tracks content items) ∧
      (∀ i items cursor next, store.Takes (Cursor.origin i) items cursor →
        (∀ b, (cursor.byte.run store).1 = .ok (.ok (b, next)) →
          Takes (cursor.byte.run store).2 (Cursor.origin i) (items ++ [.byte b]) next ∧
            cursor.position.Precedes next.position) ∧
        ∀ c, (cursor.rune.run store).1 = .ok (.ok (c, next)) →
          Takes (cursor.rune.run store).2 (Cursor.origin i) (items ++ [.rune c]) next ∧
            cursor.position.Precedes next.position) ∧
      ∀ cursor, store.Known cursor → cursor = default ∨
        ∃ i content items, (Input.contents inputs)[i]? = some content ∧
          store.Takes (Cursor.origin i) items cursor) ∧
    ∀ operations : List Operation,
      let session := ((start grammar inputs).run operations).2
      ∀ name cursor, session.registers.get? name = some cursor → cursor = default ∨
        ∃ i content items, (Input.contents inputs)[i]? = some content ∧
          session.store.Takes (Cursor.origin i) items cursor ∧
            cursor.position.Tracks content items := by
  constructor
  · intro store hreaches
    refine ⟨?_, ?_, ?_⟩
    · intro i content items cursor hcontent htakes
      exact tracks_of_takes hreaches hcontent htakes
    · intro i items cursor next htakes
      constructor
      · intro b hread
        exact ⟨htakes.read .bytes hread, Cursor.precedes_of_read Reading.regular_bytes hread⟩
      · intro c hread
        exact ⟨htakes.read .runes hread, Cursor.precedes_of_read Reading.regular_runes hread⟩
    · intro cursor hknown
      exact exists_takes_of_known hreaches hknown
  · intro operations session name cursor hget
    obtain ⟨hreaches, hregisters⟩ :=
      run_reaches (fresh_start grammar inputs).known operations
    rcases exists_takes_of_known hreaches (hregisters.get? hget) with
      hdefault | ⟨i, content, items, hcontent, htakes⟩
    · exact Or.inl hdefault
    · exact Or.inr ⟨i, content, items, hcontent, htakes,
        tracks_of_takes hreaches hcontent htakes⟩

/-- The second line is read by bytes up to one register and by scalar values up to the other.  Both
stand at the same offset in the same line, but not in the same column. -/
theorem positions_track_of_pieces :
    let inputs : List (String × Input) :=
      [("s", .streaming
        ⟨.supplier, [.deliver [0x61, 0x0A, 0xC3] false, .deliver [0xA9, 0x62] true]⟩ default)]
    let operations : List Operation :=
      [.runes "s" "l" (some 2), .bytes "l" "b" (some 3), .runes "l" "c" (some 2)]
    let session := ((start ⟨[]⟩ inputs).run operations).2
    let after (column : Nat) : Cursor := ⟨some ⟨0, ⟨2, 2⟩⟩, ⟨5, 2, column⟩⟩
    session.registers.get? "b" = some (after 4) ∧ session.registers.get? "c" = some (after 3) ∧
      ∀ column, column = 4 ∨ column = 3 →
        ∃ i content items, (Input.contents inputs)[i]? = some content ∧
          session.store.Takes (Cursor.origin i) items (after column) ∧
            (after column).position.Tracks content items := by
  intro inputs operations session after
  have hb : session.registers.get? "b" = some (after 4) := by decide +kernel
  have hc : session.registers.get? "c" = some (after 3) := by decide +kernel
  have htracks := (positions_track ⟨[]⟩ inputs).2 operations
  refine ⟨hb, hc, ?_⟩
  rintro column (rfl | rfl)
  · exact (htracks "b" _ hb).resolve_left (by decide)
  · exact (htracks "c" _ hc).resolve_left (by decide)

end Session
end StreamParse
