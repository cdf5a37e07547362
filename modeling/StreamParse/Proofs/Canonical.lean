import StreamParse.Proofs.Onward
import StreamParse.Proofs.Parser.Composed

/-!
# Cursors are canonical

The end of one chunk and the beginning of the next are two names for one offset, but reading only
ever leads to the former, however it gets there: byte by byte, by a scalar value that ends with its
chunk, or by one that lies across several chunks.  So the place of a cursor is decided by the input
it comes from and its offset, and two cursors are the same as soon as their positions are.
-/

namespace StreamParse

theorem Chain.Marks.eq {c : Chain} {p q : Place} {offset : Nat} (hp : c.Marks p offset)
    (hq : c.Marks q offset) : p = q := by
  have hchunk : p.chunk = q.chunk :=
    Nat.le_antisymm (hp.chunk_le hq (Nat.le_refl _)) (hq.chunk_le hp (Nat.le_refl _))
  have hindex : p.index = q.index := by
    have hleft := hp.offset_eq
    rw [hq.offset_eq, hchunk] at hleft
    omega
  cases p
  cases q
  cases hchunk
  cases hindex
  rfl

namespace Store

/-- Neither cursor has an input, or reads that were made lead to both from the same start, and their
positions are the same. -/
def Alike (store : Store) (a b : Cursor) : Prop :=
  a = default ∧ b = default ∨
    ∃ i, store.Onward (Cursor.origin i) a ∧ store.Onward (Cursor.origin i) b ∧
      a.position = b.position

/-- Cursors that are alike are the same, and those of one input with the same offset stand at the
same place. -/
structure Canonical (store : Store) (a b : Cursor) : Prop where
  eq_iff : a = b ↔ store.Alike a b
  anchor_eq : ∀ i, store.Onward (Cursor.origin i) a → store.Onward (Cursor.origin i) b →
    a.position.offset = b.position.offset → a.anchor = b.anchor

end Store

namespace Session

open Store

variable {grammar : Grammar} {inputs : List (String × Input)} {store : Store} {a b : Cursor}

/-- Cursors on one input with the same offset stand at the same place. -/
theorem Stands.anchor_eq
    {i : Nat} (ha : Stands grammar inputs i store a) (hb : Stands grammar inputs i store b)
    (hoffset : a.position.offset = b.position.offset) : a.anchor = b.anchor := by
  obtain ⟨-, view, -, -, hsees, hsees'⟩ := ha.exists_view hb
  cases hsees with
  | @attached chain _ _ hchain _ hmarks =>
      generalize some chain.content = view at hsees'
      cases hsees' with
      | detached =>
          obtain ⟨place, hplace⟩ := hb.on
          cases hplace
      | attached hchain' _ hmarks' =>
          rw [hchain] at hchain'
          cases hchain'
          rw [hmarks.eq (hoffset ▸ hmarks')]

theorem stands_of_onward_origin
    (hreaches : (start grammar inputs).store.Reaches store) (h : store.Known a) {i : Nat}
    (honward : store.Onward (Cursor.origin i) a) : Stands grammar inputs i store a :=
  ⟨hreaches, h, (honward.on_of_ordered (ordered_of_reaches hreaches) ⟨_, rfl⟩).1⟩

theorem canonical_of_known
    (hreaches : (start grammar inputs).store.Reaches store) (ha : store.Known a)
    (hb : store.Known b) : store.Canonical a b := by
  have hanchor : ∀ i, store.Onward (Cursor.origin i) a → store.Onward (Cursor.origin i) b →
      a.position.offset = b.position.offset → a.anchor = b.anchor := by
    intro i honward honward' hoffset
    exact (stands_of_onward_origin hreaches ha honward).anchor_eq
      (stands_of_onward_origin hreaches hb honward') hoffset
  refine ⟨⟨?_, ?_⟩, hanchor⟩
  · rintro rfl
    rcases onward_origin_of_known hreaches ha with hdefault | ⟨i, -, honward⟩
    · exact Or.inl ⟨hdefault, hdefault⟩
    · exact Or.inr ⟨i, honward, honward, rfl⟩
  · rintro (⟨rfl, rfl⟩ | ⟨i, honward, honward', hposition⟩)
    · rfl
    · have hsame := hanchor i honward honward' (congrArg Position.offset hposition)
      cases a
      cases b
      cases hsame
      cases hposition
      rfl

/-- Cursors are canonical.  Two cursors that single reads led to, in any order and by any units, are
the same exactly if they come from the same start with the same position, or have no input; and a
place is decided by the start and the offset.  Parsers give such cursors too, also in their
failures and also with others among them that jump to any such cursor.  So it is with the registers
of a session after any operations, and the session tells them apart accordingly. -/
theorem cursors_canonical (grammar : Grammar) (inputs : List (String × Input)) :
    (∀ store, (start grammar inputs).store.Reaches store →
      (∀ a b, store.Known a → store.Known b → store.Canonical a b) ∧
        ∀ {α : Type} (p : Parser α) entry, Parser.Composed (Parser.Reads store) p →
          store.Known entry →
            store.Leads KnownIn ((p entry).run store)) ∧
    ∀ operations : List Operation,
      let session := ((start grammar inputs).run operations).2
      ∀ first second a b, session.registers.get? first = some a →
        session.registers.get? second = some b →
          session.store.Canonical a b ∧
            ∃ answer, (session.step (.same first second)).1 = .same answer ∧
              (answer = true ↔ session.store.Alike a b) := by
  constructor
  · intro store hreaches
    refine ⟨fun a b ha hb => canonical_of_known hreaches ha hb, ?_⟩
    intro α p entry hp hentry
    exact (hp.behaves store.excuses_true (.start hentry)).1
  · intro operations session first second a b hfirst hsecond
    obtain ⟨hreaches, hregisters⟩ :=
      run_reaches (fresh_start grammar inputs).known operations
    have hcanonical : session.store.Canonical a b :=
      canonical_of_known hreaches (hregisters.get? hfirst) (hregisters.get? hsecond)
    refine ⟨hcanonical, decide (a = b), ?_, ?_⟩
    · simp only [step, Operation.perform, Registers.cursor, hfirst, hsecond, Action.run_bind,
        Action.run_pure]
    · rw [decide_eq_true_iff]
      exact hcanonical.eq_iff

/-- The second sequence lies across two pieces.  Bytes and scalar values lead to the same place
after it, though with different columns, and to the same cursor before it. -/
theorem cursors_canonical_of_pieces :
    let inputs : List (String × Input) :=
      [("s", .streaming
        ⟨.supplier, [.deliver [0x61] false, .deliver [0xC3] false, .deliver [0xA9] true]⟩ default)]
    let operations : List Operation :=
      [.runes "s" "a" (some 2), .bytes "s" "b" (some 3), .rune "s" "c", .byte "s" "d"]
    let session := ((start ⟨[]⟩ inputs).run operations).2
    let after (column : Nat) : Cursor := ⟨some ⟨0, ⟨3, 1⟩⟩, ⟨3, 1, column⟩⟩
    let before : Cursor := ⟨some ⟨0, ⟨1, 1⟩⟩, ⟨1, 1, 2⟩⟩
    session.registers.get? "a" = some (after 3) ∧ session.registers.get? "b" = some (after 4) ∧
      session.registers.get? "c" = some before ∧ session.registers.get? "d" = some before ∧
        session.store.Canonical (after 3) (after 4) ∧ session.store.Alike before before := by
  intro inputs operations session after before
  have ha : session.registers.get? "a" = some (after 3) := by decide +kernel
  have hb : session.registers.get? "b" = some (after 4) := by decide +kernel
  have hc : session.registers.get? "c" = some before := by decide +kernel
  have hd : session.registers.get? "d" = some before := by decide +kernel
  have hcanonical := (cursors_canonical ⟨[]⟩ inputs).2 operations
  exact ⟨ha, hb, hc, hd, (hcanonical "a" "b" _ _ ha hb).1,
    (hcanonical "c" "d" _ _ hc hd).1.eq_iff.1 rfl⟩

end Session
end StreamParse
