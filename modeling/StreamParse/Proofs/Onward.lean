import StreamParse.Proofs.Conformance

/-!
# Going onward by reading

The cursor that a read leads to is further on in the same input.  A cursor is onward of another
where reads that were made lead from one to the other; it then stands on the same chain and not
before it, and the input between both is at hand.

Runs are followed here by what they may end in as well: no read from a known cursor ends in a fault
unless the source of its input overclaims, and taking the input between two cursors never does if
the second is onward of the first.
-/

namespace StreamParse

/-- The cursor belongs to input `i`. -/
def Cursor.On (i : Nat) (cursor : Cursor) : Prop :=
  ∃ place, cursor.anchor = some ⟨i, place⟩

namespace Store

/-- Reads that were made lead from one cursor to the other, one after the other or none at all. -/
inductive Onward (store : Store) (start : Cursor) : Cursor → Prop
  | refl : Onward store start start
  | step {cursor next : Cursor} {grain : Grain} {code : Nat} :
    Onward store start cursor → ⟨grain, cursor, .ok (.ok (code, next))⟩ ∈ store.reads →
      Onward store start next

/-- Every read that was made led further on in its input. -/
def Ordered (store : Store) : Prop :=
  ∀ attempt ∈ store.reads, ∀ code next, attempt.outcome = .ok (.ok (code, next)) →
    ∃ i, attempt.cursor.On i ∧ next.On i ∧
      attempt.cursor.position.offset < next.position.offset

variable {store store' : Store} {start cursor next : Cursor}

theorem Onward.trans (h : store.Onward start cursor) (h' : store.Onward cursor next) :
    store.Onward start next := by
  induction h' with
  | refl => exact h
  | step _ hread ih => exact .step ih hread

/-- The record of reads only grows. -/
theorem Reaches.mem_reads (h : store.Reaches store') {attempt : Attempt}
    (hmem : attempt ∈ store.reads) : attempt ∈ store'.reads := by
  induction h with
  | refl => exact hmem
  | byte _ _ ih =>
      rw [Cursor.byte, reads_read]
      exact Array.mem_push_of_mem _ ih
  | rune _ _ ih =>
      rw [Cursor.rune, reads_read]
      exact Array.mem_push_of_mem _ ih

theorem Onward.reaches (h : store.Onward start cursor) (hreaches : store.Reaches store') :
    store'.Onward start cursor := by
  induction h with
  | refl => exact .refl
  | step _ hread ih => exact .step ih (hreaches.mem_reads hread)

theorem Onward.known (h : store.Onward start cursor) (hstart : store.Known start) :
    store.Known cursor := by
  cases h with
  | refl => exact hstart
  | @step _ _ _ code _ hread => exact Or.inr (Or.inr ⟨_, hread, code, rfl⟩)

/-- Going onward stays within the input and never goes back. -/
theorem Onward.on_of_ordered
    (h : store.Onward start cursor) (hordered : store.Ordered) {i : Nat} (hstart : start.On i) :
    cursor.On i ∧ start.position.offset ≤ cursor.position.offset := by
  induction h with
  | refl => exact ⟨hstart, Nat.le_refl _⟩
  | @step cursor next grain code _ hread ih =>
      obtain ⟨⟨place, hplace⟩, hle⟩ := ih
      obtain ⟨j, ⟨place', hplace'⟩, hnext, hlt⟩ := hordered _ hread code next rfl
      rw [hplace] at hplace'
      cases hplace'
      exact ⟨hnext, Nat.le_trans hle (Nat.le_of_lt hlt)⟩

end Store

/-! ## Single reads -/

/-- A reading whose units all take bytes, and which is accounted for. -/
structure Reading.Regular {α : Type} (r : Reading α) : Prop where
  usual : r.Usual
  width_pos : ∀ unit, 0 < r.width unit
  account : Nonempty r.Account

theorem Reading.regular_bytes : bytes.Regular :=
  ⟨usual_bytes, fun _ => Nat.one_pos, ⟨.bytes⟩⟩

theorem Reading.regular_runes : runes.Regular :=
  ⟨usual_runes, Char.utf8Size_pos, ⟨.runes⟩⟩

namespace Cursor

open Store

variable {α : Type} {r : Reading α} {cursor next : Cursor}

theorem advance_of_read
    {store : Store} {unit : α} (h : ((cursor.read r).run store).1 = .ok (.ok (unit, next))) :
    ∃ i, cursor.On i ∧ next.On i ∧
      next.position = cursor.position.advance (r.width unit) (r.code unit) := by
  obtain ⟨i, place, place', hplace, rfl⟩ := exists_of_read h
  exact ⟨i, ⟨place, hplace⟩, ⟨place', rfl⟩, rfl⟩

theorem next_of_read
    {store : Store} {unit : α} (h : ((cursor.read r).run store).1 = .ok (.ok (unit, next))) :
    ∃ i, cursor.On i ∧ next.On i ∧
      next.position.offset = cursor.position.offset + r.width unit := by
  obtain ⟨i, hcursor, hnext, hposition⟩ := advance_of_read h
  exact ⟨i, hcursor, hnext, by rw [hposition, Position.offset_advance]⟩

theorem ordered_read
    (hr : r.Regular) (store : Store) (cursor : Cursor) {code : Nat}
    (h : ((cursor.read r).run store).1.map (·.map fun (unit, next) => (r.code unit, next)) =
      .ok (.ok (code, next))) :
    ∃ i, cursor.On i ∧ next.On i ∧ cursor.position.offset < next.position.offset := by
  rcases hrun : ((cursor.read r).run store).1 with fault | error | ⟨unit, next'⟩
  · simp [hrun, Except.map] at h
  · simp [hrun, Except.map] at h
  · simp only [hrun, Except.map] at h
    cases h
    obtain ⟨i, hcursor, hnext, hoffset⟩ := next_of_read hrun
    have hpos := hr.width_pos unit
    exact ⟨i, hcursor, hnext, by omega⟩

theorem onward_of_read
    {store : Store} {unit : α} (h : ((cursor.read r).run store).1 = .ok (.ok (unit, next))) :
    Onward ((cursor.read r).run store).2 cursor next := by
  have hmem : ⟨r.grain, cursor, .ok (.ok (r.code unit, next))⟩ ∈
      ((cursor.read r).run store).2.reads := by
    rw [reads_read, h]
    exact Array.mem_push_self
  exact .step .refl hmem

/-- A read ends in a fault only where the source of its input overclaims. -/
theorem overclaimed_of_read
    (account : r.Account) {store : Store} {i : Nat} {view : Content}
    (hsees : store.Sees i (some view) cursor) {fault : Fault}
    (h : ((cursor.read r).run store).1 = .error fault) :
    ∃ conduct, view.ending = .overclaimed conduct ∧ fault = .overclaimed conduct := by
  cases hsees with
  | @attached chain place position hchain hsound hmarks =>
      have hfinds := account.finds ⟨chain, store.journal⟩ hsound hmarks
      generalize account.find chain.content position.offset = found at hfinds
      generalize hread : (r.read place).run ⟨chain, store.journal⟩ = result at hfinds
      simp only [read, Cursor.unit, Action.run_bind, onChain, hchain, hread] at h
      cases hfinds with
      | unit => cases h
      | halt => cases h
      | @fault conduct feed hcut =>
          cases h
          exact ⟨conduct, hcut.overclaimed, rfl⟩

end Cursor

/-- What holds of the cursors that are known at first, and goes over from a known cursor to the one
that a single read leads to, holds of all known cursors. -/
theorem Store.Reaches.forall_known
    {base store : Store} (hreaches : base.Reaches store) {P : Store → Cursor → Prop}
    (hbase : ∀ cursor, base.Known cursor → P base cursor)
    (hlater : ∀ {store store' cursor}, store.Reaches store' → P store cursor → P store' cursor)
    (hread : ∀ {α : Type} {r : Reading α} {store cursor unit next}, r.Regular →
      base.KnownFrom store cursor → P store cursor →
        ((cursor.read r).run store).1 = .ok (.ok (unit, next)) →
          P ((cursor.read r).run store).2 next) :
    ∀ cursor, store.Known cursor → P store cursor := by
  have hstep : ∀ {α : Type} {r : Reading α} {store : Store} {cursor : Cursor}, r.Regular →
      base.KnownFrom store cursor → (∀ known, store.Known known → P store known) →
        ∀ known, Known ((cursor.read r).run store).2 known →
          P ((cursor.read r).run store).2 known := by
    intro α r store cursor hr h ih known hknown
    rcases known_or_next_of_read hknown with hold | ⟨unit, hnext⟩
    · exact hlater (hr.usual h.known) (ih known hold)
    · exact hread hr h (ih cursor h.known) hnext
  induction hreaches with
  | refl => exact hbase
  | byte hreaches hknown ih => exact hstep Reading.regular_bytes ⟨hreaches, hknown⟩ ih
  | rune hreaches hknown ih => exact hstep Reading.regular_runes ⟨hreaches, hknown⟩ ih

/-! ## Cursors on an input of a session -/

theorem Store.SeesIn.exists_view
    {store : Store} {contents : List Content} {cursor : Cursor} (h : store.SeesIn contents cursor)
    {anchor : Anchor} (hanchor : cursor.anchor = some anchor) :
    ∃ view, store.Sees anchor.chain (some view) cursor := by
  obtain ⟨content, -, hsees | hsees⟩ := h anchor hanchor
  · exact ⟨_, hsees⟩
  · exact ⟨_, hsees⟩

/-- The cursor at the start of input `i`. -/
def Cursor.origin (i : Nat) : Cursor := ⟨some ⟨i, ⟨0, 0⟩⟩, .start⟩

theorem Session.eq_origin_of_known
    {grammar : Grammar} {inputs : List (String × Input)} {cursor : Cursor}
    (h : (Session.start grammar inputs).store.Known cursor) :
    cursor = default ∨
      ∃ i < (Session.start grammar inputs).store.chains.size, cursor = Cursor.origin i := by
  rcases h with hdefault | horigin | ⟨attempt, hmem, -⟩
  · exact Or.inl hdefault
  · exact Or.inr horigin
  · rw [(fresh_start grammar inputs).reads] at hmem
    simp at hmem

/-- What holds of every read from a known cursor holds of all reads that were made. -/
theorem Session.forall_reads
    {grammar : Grammar} {inputs : List (String × Input)} {store : Store}
    (hreaches : (Session.start grammar inputs).store.Reaches store) {P : Attempt → Prop}
    (hbyte : ∀ {store : Store} {cursor : Cursor},
      (Session.start grammar inputs).store.Reaches store → store.Known cursor →
        P ⟨.byte, cursor,
          (cursor.byte.run store).1.map (·.map fun (b, next) => (b.toNat, next))⟩)
    (hrune : ∀ {store : Store} {cursor : Cursor},
      (Session.start grammar inputs).store.Reaches store → store.Known cursor →
        P ⟨.rune, cursor,
          (cursor.rune.run store).1.map (·.map fun (c, next) => (c.toNat, next))⟩) :
    ∀ attempt ∈ store.reads, P attempt := by
  induction hreaches with
  | refl =>
      intro attempt hmem
      rw [(fresh_start grammar inputs).reads] at hmem
      simp at hmem
  | byte hreaches hknown ih =>
      intro attempt hmem
      rw [Cursor.byte, Store.reads_read] at hmem
      rcases Array.mem_push.1 hmem with hmem | rfl
      · exact ih attempt hmem
      · exact hbyte hreaches hknown
  | rune hreaches hknown ih =>
      intro attempt hmem
      rw [Cursor.rune, Store.reads_read] at hmem
      rcases Array.mem_push.1 hmem with hmem | rfl
      · exact ih attempt hmem
      · exact hrune hreaches hknown

theorem Session.ordered_of_reaches
    {grammar : Grammar} {inputs : List (String × Input)} {store : Store}
    (h : (Session.start grammar inputs).store.Reaches store) : store.Ordered := by
  refine forall_reads h ?_ ?_
  · intro store cursor _ _ code next hnext
    exact Cursor.ordered_read Reading.regular_bytes store cursor hnext
  · intro store cursor _ _ code next hnext
    exact Cursor.ordered_read Reading.regular_runes store cursor hnext

/-- Every known cursor was reached from the start of its input, if it has one. -/
theorem Session.onward_origin_of_known
    {grammar : Grammar} {inputs : List (String × Input)} {store : Store}
    (hreaches : (Session.start grammar inputs).store.Reaches store) {cursor : Cursor}
    (h : store.Known cursor) :
    cursor = default ∨ ∃ i < store.chains.size, store.Onward (Cursor.origin i) cursor := by
  refine hreaches.forall_known
    (P := fun store cursor =>
      cursor = default ∨ ∃ i < store.chains.size, store.Onward (Cursor.origin i) cursor)
    ?_ ?_ ?_ cursor h
  · intro cursor hknown
    rcases eq_origin_of_known hknown with hdefault | ⟨i, hi, rfl⟩
    · exact Or.inl hdefault
    · exact Or.inr ⟨i, hi, .refl⟩
  · intro store store' cursor hreaches hcursor
    rcases hcursor with hdefault | ⟨i, hi, honward⟩
    · exact Or.inl hdefault
    · exact Or.inr ⟨i, by rwa [hreaches.size_chains], honward.reaches hreaches⟩
  · intro α r store cursor unit next hr h hcursor hread
    rcases hcursor with rfl | ⟨i, hi, honward⟩
    · cases hread
    · refine Or.inr ⟨i, by rwa [Store.size_chains_read], ?_⟩
      exact (honward.reaches (hr.usual h.known)).trans (Cursor.onward_of_read hread)

/-- A known cursor on input `i`, after some reads of a session. -/
structure Session.Stands (grammar : Grammar) (inputs : List (String × Input)) (i : Nat)
    (store : Store) (cursor : Cursor) : Prop where
  reaches : (Session.start grammar inputs).store.Reaches store
  known : store.Known cursor
  on : cursor.On i

theorem Session.stands_origin
    {grammar : Grammar} {inputs : List (String × Input)} {store : Store}
    (hreaches : (Session.start grammar inputs).store.Reaches store) {i : Nat} {content : Content}
    (hcontent : (Input.contents inputs)[i]? = some content) :
    Stands grammar inputs i store (Cursor.origin i) := by
  have hlt := (List.getElem?_eq_some_iff.1 hcontent).1
  rw [← ((fresh_start grammar inputs).holds.reaches hreaches).size] at hlt
  exact ⟨hreaches, Or.inr (Or.inl ⟨i, hlt, rfl⟩), ⟨_, rfl⟩⟩

namespace Session.Stands

open Store

variable {grammar : Grammar} {inputs : List (String × Input)} {i : Nat} {store store' : Store}
  {cursor next : Cursor}

theorem after (h : Stands grammar inputs i store cursor) (hreaches : store.Reaches store') :
    Stands grammar inputs i store' cursor :=
  ⟨h.reaches.trans hreaches, hreaches.known h.known, h.on⟩

theorem holds (h : Stands grammar inputs i store cursor) :
    store.Holds (Input.contents inputs) :=
  (fresh_start grammar inputs).holds.reaches h.reaches

theorem ordered (h : Stands grammar inputs i store cursor) : store.Ordered :=
  ordered_of_reaches h.reaches

theorem onward
    (h : Stands grammar inputs i store cursor) (honward : store.Onward cursor next) :
    Stands grammar inputs i store next :=
  ⟨h.reaches, honward.known h.known, (honward.on_of_ordered h.ordered h.on).1⟩

/-- Two cursors of one input see the same: its content, or that content settled. -/
theorem exists_view
    (h : Stands grammar inputs i store cursor) (h' : Stands grammar inputs i store next) :
    ∃ content view, (Input.contents inputs)[i]? = some content ∧
      (view = content ∨ view = content.settled) ∧ store.Sees i (some view) cursor ∧
        store.Sees i (some view) next := by
  obtain ⟨place, hplace⟩ := h.on
  obtain ⟨place', hplace'⟩ := h'.on
  obtain ⟨content, hcontent, hsees⟩ := h.holds.sees h.known _ hplace
  obtain ⟨view', hview'⟩ := (h'.holds.sees h'.known).exists_view hplace'
  -- What a cursor sees is the content of its chain, and the chain is the same for both.
  have hsame : ∀ view view', store.Sees i (some view) cursor → store.Sees i (some view') next →
      store.Sees i (some view) next := by
    intro view view' hview hview'
    cases hview with
    | attached hchain hsound hmarks =>
        cases hview' with
        | attached hchain' hsound' hmarks' =>
            rw [hchain] at hchain'
            cases hchain'
            exact .attached hchain hsound' hmarks'
  rcases hsees with hview | hview
  · exact ⟨content, content, hcontent, Or.inl rfl, hview, hsame _ _ hview hview'⟩
  · exact ⟨content, content.settled, hcontent, Or.inr rfl, hview, hsame _ _ hview hview'⟩

theorem exists_content (h : Stands grammar inputs i store cursor) :
    ∃ content, (Input.contents inputs)[i]? = some content := by
  obtain ⟨content, -, hcontent, -⟩ := h.exists_view h
  exact ⟨content, hcontent⟩

variable {content : Content}

theorem exists_sees
    (h : Stands grammar inputs i store cursor) (h' : Stands grammar inputs i store next)
    (hcontent : (Input.contents inputs)[i]? = some content) :
    ∃ view : Content, view.bytes = content.bytes ∧ store.Sees i (some view) cursor ∧
      store.Sees i (some view) next := by
  obtain ⟨content', view, hcontent', hview, hsees, hsees'⟩ := h.exists_view h'
  obtain rfl : content = content' := Option.some.inj (hcontent.symm.trans hcontent')
  refine ⟨view, ?_, hsees, hsees'⟩
  rcases hview with rfl | rfl
  · rfl
  · exact content.bytes_settled

theorem sees
    (h : Stands grammar inputs i store cursor)
    (hcontent : (Input.contents inputs)[i]? = some content)
    (hending : ∀ conduct, content.ending ≠ .overclaimed conduct) :
    store.Sees i (some content) cursor := by
  obtain ⟨content', view, hcontent', hview, hsees, -⟩ := h.exists_view h
  obtain rfl : content = content' := Option.some.inj (hcontent.symm.trans hcontent')
  rw [Content.settled_of_ending hending, or_self] at hview
  exact hview ▸ hsees

theorem offset_le
    (h : Stands grammar inputs i store cursor)
    (hcontent : (Input.contents inputs)[i]? = some content) :
    cursor.position.offset ≤ content.bytes.length := by
  obtain ⟨view, hbytes, hsees, -⟩ := h.exists_sees h hcontent
  rw [← hbytes]
  exact Cursor.offset_le_of_sees hsees

end Session.Stands

/-! ## Runs and their faults -/

/-- The faults that a run on input `i` may end in: faults of its own, that of a source which
overclaims, and that of offsets which are no addresses any more. -/
def Excused (inputs : List (String × Input)) (i : Nat) (own : Fault → Prop) (fault : Fault) :
    Prop :=
  own fault ∨ ∃ content, (Input.contents inputs)[i]? = some content ∧
    ((∃ conduct, content.ending = .overclaimed conduct ∧ fault = .overclaimed conduct) ∨
      Parser.offsetLimit ≤ content.bytes.length ∧ fault = .inconsistent .offsetOverflow)

namespace Store

/-- A unit with a cursor onward, or an error. -/
def OnwardAfter {α : Type} (start : Cursor) (store : Store) : Except Error (α × Cursor) → Prop
  | .error _ => True
  | .ok (_, next) => store.Onward start next

end Store

namespace Cursor

open Store Session

variable {grammar : Grammar} {inputs : List (String × Input)} {i : Nat} {own : Fault → Prop}
  {α β : Type} {r : Reading α} {store : Store} {cursor stop : Cursor}

theorem proceeds_read (hr : r.Regular) (h : Stands grammar inputs i store cursor) :
    store.Proceeds (Excused inputs i own) (OnwardAfter cursor) ((cursor.read r).run store) := by
  refine ⟨⟨hr.usual h.known, ?_⟩, ?_⟩
  · rintro (error | ⟨unit, next⟩) hvalue
    · trivial
    · exact onward_of_read hvalue
  · intro fault hfault
    obtain ⟨content, view, hcontent, hview, hsees, -⟩ := h.exists_view h
    obtain ⟨account⟩ := hr.account
    obtain ⟨conduct, hending, rfl⟩ := overclaimed_of_read account hsees hfault
    refine Or.inr ⟨content, hcontent, Or.inl ⟨conduct, ?_, rfl⟩⟩
    rcases hview with rfl | rfl
    · exact hending
    · exact Content.ending_of_settled hending

theorem proceeds_traverse
    (hr : r.Regular) (rule : TraversalRule α β) (gathered : β)
    (h : Stands grammar inputs i store cursor) :
    store.Proceeds (Excused inputs i own)
      (fun store' traversal => store'.Onward cursor traversal.cursor)
      (traverse r rule gathered cursor store) := by
  have hread : ∀ ⦃store' cursor'⦄,
      Stands grammar inputs i store' cursor ∧ store'.Onward cursor cursor' →
        store'.Proceeds (Excused inputs i own)
          (fun store'' result => ∀ unit next, result = .ok (unit, next) →
            Stands grammar inputs i store'' cursor ∧ store''.Onward cursor next)
          ((cursor'.read r).run store') := by
    rintro store' cursor' ⟨hstands, honward⟩
    obtain ⟨⟨hreaches, hgives⟩, hfaults⟩ := (proceeds_read hr (hstands.onward honward) :
      store'.Proceeds (Excused inputs i own) _ _)
    refine ⟨⟨hreaches, ?_⟩, hfaults⟩
    rintro result hvalue unit next rfl
    exact ⟨hstands.after hreaches, (honward.reaches hreaches).trans (hgives _ hvalue)⟩
  obtain ⟨⟨hreaches, honward⟩, hfaults⟩ := proceeds_traverse_of_read
    (fun store' cursor' => Stands grammar inputs i store' cursor ∧ store'.Onward cursor cursor')
    (fun _ _ _ hreaches h => ⟨h.1.after hreaches, h.2.reaches hreaches⟩) hread rule gathered
    ⟨h, .refl⟩
  exact ⟨⟨hreaches, fun traversal hvalue => (honward traversal hvalue).2⟩, hfaults⟩

/-- What asking for the span between two cursors comes to: which fault it ends in is decided by the
offsets, by cursors without input and by the inputs, in this order. -/
inductive Spans (store : Store) (start stop : Cursor) : Except Fault (Array UInt8) × Store → Prop
  | reversed :
    stop.position.offset < start.position.offset →
      Spans store start stop (.error .spanReversed, store)
  | detached :
    start.anchor = none ∨ stop.anchor = none → Spans store start stop (.error .detached, store)
  | unreachable {i j : Nat} :
    start.On i → stop.On j → i ≠ j → Spans store start stop (.error .spanUnreachable, store)
  | within {i : Nat} (result : Except Fault (Array UInt8) × Store) :
    start.On i → stop.On i → start.position.offset ≤ stop.position.offset →
      Spans store start stop result

theorem spans_bytesUntil (store : Store) (start stop : Cursor) :
    Spans store start stop ((start.bytesUntil stop).run store) := by
  by_cases hlt : stop.position.offset < start.position.offset
  · rw [bytesUntil, if_pos hlt]
    exact .reversed hlt
  · obtain ⟨a, p⟩ := start
    obtain ⟨b, q⟩ := stop
    rw [bytesUntil, if_neg hlt]
    cases a with
    | none => exact .detached (Or.inl rfl)
    | some a =>
        cases b with
        | none => exact .detached (Or.inr rfl)
        | some b =>
            by_cases hsame : a.chain = b.chain
            · exact .within _ ⟨a.place, rfl⟩ ⟨b.place, by rw [hsame]⟩ (Nat.le_of_not_lt hlt)
            · dsimp only
              rw [if_neg hsame]
              exact .unreachable ⟨a.place, rfl⟩ ⟨b.place, rfl⟩ hsame

/-- The input between two cursors of one input is at hand, and having it changes nothing. -/
theorem run_bytesUntil_of_stands
    (h : Stands grammar inputs i store cursor) (hstop : Stands grammar inputs i store stop)
    (hle : cursor.position.offset ≤ stop.position.offset) {content : Content}
    (hcontent : (Input.contents inputs)[i]? = some content) :
    (cursor.bytesUntil stop).run store =
      (.ok (content.between cursor.position.offset stop.position.offset).toArray, store) := by
  obtain ⟨view, hbytes, hsees, hsees'⟩ := h.exists_sees hstop hcontent
  rw [run_bytesUntil hsees hsees' hle, Content.between_congr hbytes]

theorem run_bytesUntil_of_onward
    (h : Stands grammar inputs i store cursor) (honward : store.Onward cursor stop)
    {content : Content} (hcontent : (Input.contents inputs)[i]? = some content) :
    (cursor.bytesUntil stop).run store =
      (.ok (content.between cursor.position.offset stop.position.offset).toArray, store) :=
  run_bytesUntil_of_stands h (h.onward honward) (honward.on_of_ordered h.ordered h.on).2 hcontent

/-- The text up to a cursor onward is that of the content, or the place where it is none. -/
theorem run_textUntil_of_onward
    (h : Stands grammar inputs i store cursor) (honward : store.Onward cursor stop)
    {content : Content} (hcontent : (Input.contents inputs)[i]? = some content) :
    ∃ store', (cursor.textUntil stop).run store =
      (.ok (content.textBetween cursor.position stop.position), store') := by
  obtain ⟨view, hbytes, hsees, hsees'⟩ := h.exists_sees (h.onward honward) hcontent
  have hle := (honward.on_of_ordered h.ordered h.on).2
  obtain ⟨store', hrun, -, -⟩ := run_textUntil hsees hsees' hle
  refine ⟨store', ?_⟩
  rw [hrun, Content.textBetween, Content.textBetween, Content.between_congr hbytes]

end Cursor
end StreamParse
