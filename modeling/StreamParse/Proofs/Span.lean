import StreamParse.Proofs.Canonical

/-!
# Spans between any two cursors

Which way led to a cursor does not matter for a span, only which input the cursor is on and where.
So there is a span between cursors of sibling branches as well, as soon as the second has an offset
that is not smaller, and it is the input between both offsets.  Everything else is a fault, and
which one is decided by the offsets, then by cursors without input, then by the inputs.
-/

namespace StreamParse

theorem Content.between_append (content : Content) {start middle stop : Nat}
    (hmiddle : start ≤ middle) (hstop : middle ≤ stop) :
    content.between start stop = content.between start middle ++ content.between middle stop := by
  obtain ⟨first, rfl⟩ := Nat.exists_eq_add_of_le hmiddle
  obtain ⟨second, rfl⟩ := Nat.exists_eq_add_of_le hstop
  have hlength : start + first + second - start = first + second := by omega
  simp only [between, hlength, Nat.add_sub_cancel_left, List.take_add, List.drop_drop]

namespace Store

/-- What the span from one cursor to another comes to: the input between both, or a fault. -/
inductive Spanned (contents : List Content) (store : Store) (a b : Cursor) :
    Except Fault (Array UInt8) → Prop
  | reversed :
    b.position.offset < a.position.offset → Spanned contents store a b (.error .spanReversed)
  | detached :
    a.position.offset ≤ b.position.offset → a = default ∨ b = default →
      Spanned contents store a b (.error .detached)
  | unreachable {i j : Nat} :
    a.position.offset ≤ b.position.offset → store.Onward (Cursor.origin i) a →
      store.Onward (Cursor.origin j) b → i ≠ j →
        Spanned contents store a b (.error .spanUnreachable)
  | within {i : Nat} {content : Content} :
    a.position.offset ≤ b.position.offset → store.Onward (Cursor.origin i) a →
      store.Onward (Cursor.origin i) b → contents[i]? = some content →
        Spanned contents store a b
          (.ok (content.between a.position.offset b.position.offset).toArray)

end Store

def Report.ofSpan : Except Fault (Array UInt8) → Report
  | .ok span => .bytes span
  | .error misuse => .fault misuse

namespace Session

open Store

variable {grammar : Grammar} {inputs : List (String × Input)} {store : Store} {a b c : Cursor}
  {result : Except Fault (Array UInt8)}

theorem onward_of_ne_default
    (hreaches : (start grammar inputs).store.Reaches store) (h : store.Known a)
    (hne : a ≠ default) :
    ∃ i, store.Onward (Cursor.origin i) a := by
  rcases onward_origin_of_known hreaches h with hdefault | ⟨i, -, honward⟩
  · exact absurd hdefault hne
  · exact ⟨i, honward⟩

theorem ne_default_of_onward
    (hreaches : (start grammar inputs).store.Reaches store) {i : Nat}
    (h : store.Onward (Cursor.origin i) a) : a ≠ default := by
  rintro rfl
  obtain ⟨⟨place, hplace⟩, -⟩ := h.on_of_ordered (ordered_of_reaches hreaches) ⟨⟨0, 0⟩, rfl⟩
  cases hplace

/-- The span comes to what is said of it, whichever way led to the two cursors. -/
theorem run_bytesUntil_of_spanned
    (hreaches : (start grammar inputs).store.Reaches store) (ha : store.Known a)
    (hb : store.Known b) (h : store.Spanned (Input.contents inputs) a b result) :
    (a.bytesUntil b).run store = (result, store) := by
  cases h with
  | reversed hlt =>
      rw [Cursor.bytesUntil, if_pos hlt]
      rfl
  | detached hle hdefault =>
      rw [Cursor.bytesUntil, if_neg (Nat.not_lt.2 hle)]
      rcases hdefault with rfl | rfl
      · rfl
      · cases a.anchor <;> rfl
  | unreachable hle honward honward' hne =>
      obtain ⟨place, hplace⟩ := (stands_of_onward_origin hreaches ha honward).on
      obtain ⟨place', hplace'⟩ := (stands_of_onward_origin hreaches hb honward').on
      simp only [Cursor.bytesUntil, if_neg (Nat.not_lt.2 hle), hplace, hplace', if_neg hne]
      rfl
  | within hle honward honward' hcontent =>
      exact Cursor.run_bytesUntil_of_stands (stands_of_onward_origin hreaches ha honward)
        (stands_of_onward_origin hreaches hb honward') hle hcontent

theorem exists_spanned
    (hreaches : (start grammar inputs).store.Reaches store) (ha : store.Known a)
    (hb : store.Known b) : ∃ result, store.Spanned (Input.contents inputs) a b result := by
  rcases Nat.lt_or_ge b.position.offset a.position.offset with hlt | hle
  · exact ⟨_, .reversed hlt⟩
  by_cases hdefault : a = default ∨ b = default
  · exact ⟨_, .detached hle hdefault⟩
  obtain ⟨hdefault, hdefault'⟩ := not_or.1 hdefault
  obtain ⟨i, honward⟩ := onward_of_ne_default hreaches ha hdefault
  obtain ⟨j, honward'⟩ := onward_of_ne_default hreaches hb hdefault'
  by_cases hsame : i = j
  · subst hsame
    obtain ⟨content, hcontent⟩ := (stands_of_onward_origin hreaches ha honward).exists_content
    exact ⟨_, .within hle honward honward' hcontent⟩
  · exact ⟨_, .unreachable hle honward honward' hsame⟩

theorem spanned_iff
    (hreaches : (start grammar inputs).store.Reaches store) (ha : store.Known a)
    (hb : store.Known b) :
    store.Spanned (Input.contents inputs) a b result ↔
      (a.bytesUntil b).run store = (result, store) := by
  constructor
  · exact run_bytesUntil_of_spanned hreaches ha hb
  · intro hrun
    obtain ⟨result', hspanned⟩ := exists_spanned hreaches ha hb
    have hrun' := run_bytesUntil_of_spanned hreaches ha hb hspanned
    rw [hrun] at hrun'
    cases hrun'
    exact hspanned

/-- There is a span exactly between two cursors from the same start whose offsets are in order. -/
theorem exists_span_iff
    (hreaches : (start grammar inputs).store.Reaches store) (ha : store.Known a)
    (hb : store.Known b) :
    (∃ bytes, ((a.bytesUntil b).run store).1 = .ok bytes) ↔
      a.position.offset ≤ b.position.offset ∧ a ≠ default ∧ b ≠ default ∧
        ∃ i, store.Onward (Cursor.origin i) a ∧ store.Onward (Cursor.origin i) b := by
  constructor
  · rintro ⟨bytes, hbytes⟩
    obtain ⟨result, hspanned⟩ := exists_spanned hreaches ha hb
    rw [run_bytesUntil_of_spanned hreaches ha hb hspanned] at hbytes
    subst hbytes
    cases hspanned with
    | within hle honward honward' _ =>
        exact ⟨hle, ne_default_of_onward hreaches honward, ne_default_of_onward hreaches honward',
          _, honward, honward'⟩
  · rintro ⟨hle, -, -, i, honward, honward'⟩
    obtain ⟨content, hcontent⟩ := (stands_of_onward_origin hreaches ha honward).exists_content
    exact ⟨_, congrArg Prod.fst
      (run_bytesUntil_of_spanned hreaches ha hb (.within hle honward honward' hcontent))⟩

/-- Spans of one input that follow each other are together the span over both. -/
theorem span_append
    (hreaches : (start grammar inputs).store.Reaches store) (ha : store.Known a)
    (hb : store.Known b) (hc : store.Known c) {i : Nat} (honward : store.Onward (Cursor.origin i) a)
    (honward' : store.Onward (Cursor.origin i) b) (honward'' : store.Onward (Cursor.origin i) c)
    (hle : a.position.offset ≤ b.position.offset) (hle' : b.position.offset ≤ c.position.offset) :
    ∃ first second, (a.bytesUntil b).run store = (.ok first, store) ∧
      (b.bytesUntil c).run store = (.ok second, store) ∧
        (a.bytesUntil c).run store = (.ok (first ++ second), store) := by
  obtain ⟨content, hcontent⟩ := (stands_of_onward_origin hreaches ha honward).exists_content
  have hwhole := run_bytesUntil_of_spanned hreaches ha hc
    (.within (Nat.le_trans hle hle') honward honward'' hcontent)
  rw [content.between_append hle hle', ← List.append_toArray] at hwhole
  exact ⟨_, _, run_bytesUntil_of_spanned hreaches ha hb (.within hle honward honward' hcontent),
    run_bytesUntil_of_spanned hreaches hb hc (.within hle' honward' honward'' hcontent), hwhole⟩

/-- The message of a span that is none says what is first found wrong with it. -/
theorem message_of_spanned
    (hreaches : (start grammar inputs).store.Reaches store) {contents : List Content}
    {fault : Fault} (h : store.Spanned contents a b (.error fault)) :
    fault.message =
      if b.position.offset < a.position.offset then "span end lies before its start"
      else if a = default ∨ b = default then "read from a State that does not refer to any input"
      else "span end is not reachable from its start" := by
  cases h with
  | reversed hlt =>
      rw [if_pos hlt]
      rfl
  | detached hle hdefault =>
      rw [if_neg (Nat.not_lt.2 hle), if_pos hdefault]
      rfl
  | unreachable hle honward honward' =>
      have hdefault : ¬(a = default ∨ b = default) :=
        not_or.2 ⟨ne_default_of_onward hreaches honward, ne_default_of_onward hreaches honward'⟩
      rw [if_neg (Nat.not_lt.2 hle), if_neg hdefault]
      rfl

theorem step_bytesUntil
    {session : Session} {source stop : String} (hsource : session.registers.get? source = some a)
    (hstop : session.registers.get? stop = some b)
    (hrun : (a.bytesUntil b).run session.store = (result, session.store)) :
    session.step (.bytesUntil source stop) = (Report.ofSpan result, session) := by
  simp only [step, Operation.perform, Registers.cursor, hsource, hstop, Action.run_bind,
    Action.run_pure, hrun]
  cases result with
  | error fault => rfl
  | ok span => rfl

/-- Spans are exact.  For any two cursors that single reads led to, the span between them comes to
exactly one thing, and having it changes nothing: it is the input between their offsets if both come
from the same start and the offsets are in order, and otherwise a fault, whose message says what is
first found wrong.  Spans that follow each other append.  So it is with the registers of a session
after any operations. -/
theorem spans_exact (grammar : Grammar) (inputs : List (String × Input)) :
    (∀ store, (start grammar inputs).store.Reaches store → ∀ a b, store.Known a → store.Known b →
      (∃ result, (a.bytesUntil b).run store = (result, store) ∧
        ∀ answer, store.Spanned (Input.contents inputs) a b answer ↔ answer = result) ∧
      ((∃ bytes, ((a.bytesUntil b).run store).1 = .ok bytes) ↔
        a.position.offset ≤ b.position.offset ∧ a ≠ default ∧ b ≠ default ∧
          ∃ i, store.Onward (Cursor.origin i) a ∧ store.Onward (Cursor.origin i) b) ∧
      (∀ fault, ((a.bytesUntil b).run store).1 = .error fault →
        fault.message =
          if b.position.offset < a.position.offset then "span end lies before its start"
          else if a = default ∨ b = default then
            "read from a State that does not refer to any input"
          else "span end is not reachable from its start") ∧
      ∀ c i, store.Known c → store.Onward (Cursor.origin i) a → store.Onward (Cursor.origin i) b →
        store.Onward (Cursor.origin i) c → a.position.offset ≤ b.position.offset →
          b.position.offset ≤ c.position.offset →
            ∃ first second, (a.bytesUntil b).run store = (.ok first, store) ∧
              (b.bytesUntil c).run store = (.ok second, store) ∧
                (a.bytesUntil c).run store = (.ok (first ++ second), store)) ∧
    ∀ operations : List Operation,
      let session := ((start grammar inputs).run operations).2
      ∀ source stop a b, session.registers.get? source = some a →
        session.registers.get? stop = some b →
          ∃ result, session.store.Spanned (Input.contents inputs) a b result ∧
            session.step (.bytesUntil source stop) = (Report.ofSpan result, session) := by
  constructor
  · intro store hreaches a b ha hb
    obtain ⟨result, hspanned⟩ := exists_spanned hreaches ha hb
    have hrun := run_bytesUntil_of_spanned hreaches ha hb hspanned
    refine ⟨⟨result, hrun, ?_⟩, exists_span_iff hreaches ha hb, ?_, ?_⟩
    · intro answer
      rw [spanned_iff hreaches ha hb, hrun, Prod.mk.injEq, eq_comm]
      exact and_iff_left rfl
    · intro fault hfault
      rw [hrun] at hfault
      subst hfault
      exact message_of_spanned hreaches hspanned
    · intro c i hc honward honward' honward'' hle hle'
      exact span_append hreaches ha hb hc honward honward' honward'' hle hle'
  · intro operations session source stop a b hsource hstop
    obtain ⟨hreaches, hregisters⟩ :=
      run_reaches (fresh_start grammar inputs).known operations
    have ha : session.store.Known a := hregisters.get? hsource
    have hb : session.store.Known b := hregisters.get? hstop
    obtain ⟨result, hspanned⟩ := exists_spanned hreaches ha hb
    refine ⟨result, hspanned, ?_⟩
    have hrun : (a.bytesUntil b).run session.store = (result, session.store) :=
      run_bytesUntil_of_spanned hreaches ha hb hspanned
    exact step_bytesUntil hsource hstop hrun

/-- Two cursors on sibling branches: one after the first byte of a sequence that lies across two
pieces, one after all of it.  Between them is the second byte.  The other pairs end in the three
faults, and a cursor without input is not noticed where the offsets are out of order. -/
theorem spans_exact_of_pieces :
    let inputs : List (String × Input) :=
      [("s", .streaming
        ⟨.supplier, [.deliver [0x61] false, .deliver [0xC3] false, .deliver [0xA9] true]⟩ default),
        ("t", .complete [0x62, 0x63, 0x64]), ("n", .detached)]
    let operations : List Operation :=
      [.byte "s" "a", .byte "a" "b", .rune "a" "c", .bytes "t" "u" (some 3)]
    let session := ((start ⟨[]⟩ inputs).run operations).2
    let b : Cursor := ⟨some ⟨0, ⟨2, 1⟩⟩, ⟨2, 1, 3⟩⟩
    let c : Cursor := ⟨some ⟨0, ⟨3, 1⟩⟩, ⟨3, 1, 3⟩⟩
    let u : Cursor := ⟨some ⟨1, ⟨0, 3⟩⟩, ⟨3, 1, 4⟩⟩
    session.registers.get? "b" = some b ∧ session.registers.get? "c" = some c ∧
      session.registers.get? "u" = some u ∧
      (∃ i, session.store.Onward (Cursor.origin i) b ∧ session.store.Onward (Cursor.origin i) c) ∧
      session.step (.bytesUntil "b" "c") = (.bytes #[0xA9], session) ∧
      session.step (.bytesUntil "b" "u") = (.fault .spanUnreachable, session) ∧
      session.step (.bytesUntil "c" "b") = (.fault .spanReversed, session) ∧
      session.step (.bytesUntil "c" "n") = (.fault .spanReversed, session) ∧
      session.step (.bytesUntil "n" "c") = (.fault .detached, session) := by
  intro inputs operations session b c u
  have hb : session.registers.get? "b" = some b := by decide +kernel
  have hc : session.registers.get? "c" = some c := by decide +kernel
  have hu : session.registers.get? "u" = some u := by decide +kernel
  have hn : session.registers.get? "n" = some default := by decide +kernel
  obtain ⟨hreaches, hregisters⟩ := run_reaches (fresh_start ⟨[]⟩ inputs).known operations
  have hspan := (spans_exact ⟨[]⟩ inputs).1 session.store hreaches
  have hstep : ∀ answer {source stop first last}, session.registers.get? source = some first →
      session.registers.get? stop = some last →
        ((first.bytesUntil last).run session.store).1 = answer →
          session.step (.bytesUntil source stop) = (Report.ofSpan answer, session) := by
    intro answer source stop first last hsource hstop hanswer
    obtain ⟨⟨result, hrun, -⟩, -⟩ :=
      hspan first last (hregisters.get? hsource) (hregisters.get? hstop)
    obtain rfl : result = answer := (congrArg Prod.fst hrun).symm.trans hanswer
    exact step_bytesUntil hsource hstop hrun
  have hbytes : ((b.bytesUntil c).run session.store).1 = .ok #[0xA9] := by decide +kernel
  have hsame := (hspan b c (hregisters.get? hb) (hregisters.get? hc)).2.1.1 ⟨_, hbytes⟩
  exact ⟨hb, hc, hu, hsame.2.2.2, hstep _ hb hc hbytes,
    hstep (.error .spanUnreachable) hb hu (by decide +kernel),
    hstep (.error .spanReversed) hc hb (by decide +kernel),
    hstep (.error .spanReversed) hc hn (by decide +kernel),
    hstep (.error .detached) hn hc (by decide +kernel)⟩

end Session
end StreamParse
