import StreamParse.Proofs.Chain.Overclaim
import StreamParse.Proofs.Layout
import StreamParse.Proofs.Demand
import StreamParse.Proofs.Parser.Heritable

/-!
# An overclaiming source leaves everything else intact

A run that ends in the fault of a source has made reads, and the last of them ended in this fault.
So all that went before stands: the chunks pulled for it, the other inputs and all cursors.  The
input whose source claimed too much ends from then on after the bytes that are there, and all its
cursors can be read from as if it always had.  Its source is not asked again.
-/

namespace StreamParse

namespace Store

/-- A read from input `i` ended in the fault of its source.  The chain of the input was `c` by then,
which may have grown within this read; it lost its source, and no other chain was touched. -/
structure Forfeits (store : Store) (conduct : Conduct) (i : Nat) (c : Chain) (store' : Store) :
    Prop where
  pulled : ∃ before journal feed', store.chains[i]? = some before ∧
    Feed.Asks ⟨before, store.journal⟩ ⟨c, journal⟩ ∧ Feed.Drops ⟨c, journal⟩ conduct feed' ∧
      store'.journal = feed'.journal
  chains : store'.chains = store.chains.setIfInBounds i c.close

/-- Reads were made that are on record, and nothing was done but what these do.  The one on record
last was from input `i` and ended in the fault of its source. -/
def Loses (store : Store) (conduct : Conduct) (i : Nat) (c : Chain) (store' : Store) : Prop :=
  ∃ middle attempts last, store.Reaches middle ∧ store.Widens attempts middle ∧
    store'.reads = middle.reads.push last ∧ last.cursor.On i ∧
      last.outcome = .error (.overclaimed conduct) ∧ middle.Forfeits conduct i c store'

/-- Input `i` has ended as chain `c` without its source.  All known cursors are read from as if the
content of the input were the bytes of `c`, and no more; and whatever is read from the input, no
chain changes and no source is asked. -/
structure EndsAs (contents : List Content) (i : Nat) (c : Chain) (store : Store) : Prop where
  chain : store.chains[i]? = some c.close
  byte : ∀ cursor, store.Known cursor →
    Attempt.Conforms (contents.set i ⟨c.bytes, .ended⟩)
      ⟨.byte, cursor, (cursor.byte.run store).1.map (·.map fun (b, next) => (b.toNat, next))⟩
  rune : ∀ cursor, store.Known cursor →
    Attempt.Conforms (contents.set i ⟨c.bytes, .ended⟩)
      ⟨.rune, cursor, (cursor.rune.run store).1.map (·.map fun (c, next) => (c.toNat, next))⟩
  untouched : ∀ cursor : Cursor, cursor.On i →
    store.Untouched (cursor.byte.run store).2 ∧ store.Untouched (cursor.rune.run store).2

variable {store store' : Store} {conduct : Conduct} {i : Nat} {c : Chain}

/-! ## The read that ends in the fault -/

section

variable {α : Type} {r : Reading α}

theorem forfeits_of_read
    (hyields : ∀ place feed, Feed.Yields feed ((r.read place).run feed)) {cursor : Cursor}
    (h : (cursor.read r).run store = (.error (.overclaimed conduct), store')) :
    ∃ i c, cursor.On i ∧ store.Forfeits conduct i c store' := by
  obtain ⟨anchor, position⟩ := cursor
  cases anchor with
  | none => cases h
  | some anchor =>
      cases hchain : store.chains[anchor.chain]? with
      | none =>
          simp only [Cursor.run_read, Cursor.unit, Action.run_bind, onChain, hchain] at h
          cases h
      | some before =>
          obtain ⟨hchains, hjournal⟩ :=
            Cursor.store_read r (rfl : Cursor.anchor ⟨some anchor, position⟩ = _) hchain
          have hyield := hyields anchor.place ⟨before, store.journal⟩
          rw [h] at hchains hjournal
          rcases hrun : (r.read anchor.place).run ⟨before, store.journal⟩ with ⟨outcome, feed'⟩
          have hfault : outcome = .error (.overclaimed conduct) := by
            simp only [Cursor.run_read, Cursor.unit, Action.run_bind, run_onChain hchain, hrun] at h
            rcases outcome with fault | halt | ⟨unit, place⟩
            · cases h
              rfl
            · cases h
            · cases h
          rw [hrun] at hyield hchains hjournal
          obtain ⟨middle, hasks, hdrops⟩ := hyield conduct hfault
          refine ⟨anchor.chain, middle.chain, ⟨anchor.place, rfl⟩, ?_, ?_⟩
          · exact ⟨before, middle.journal, feed', hchain, hasks, hdrops, hjournal⟩
          · rw [hchains]
            cases hdrops with
            | pull => rfl

theorem error_of_last_read
    {cursor cursor' : Cursor} {grain : Grain} {fault : Fault}
    (h : ((cursor.read r).run store).2.reads.toList.getLast? =
      some ⟨grain, cursor', .error fault⟩) :
    ((cursor.read r).run store).1 = .error fault := by
  rw [reads_read, Array.toList_push, List.getLast?_concat] at h
  rcases hrun : ((cursor.read r).run store).1 with fault' | result
  · rw [hrun] at h
    cases h
    rfl
  · rw [hrun] at h
    cases h

theorem loses_of_last_read
    (hyields : ∀ place feed, Feed.Yields feed ((r.read place).run feed)) {middle : Store}
    (hmiddle : store.Reaches middle) {cursor cursor' : Cursor} {grain : Grain}
    (h : ((cursor.read r).run middle).2.reads.toList.getLast? =
      some ⟨grain, cursor', .error (.overclaimed conduct)⟩) :
    ∃ i c, store.Loses conduct i c ((cursor.read r).run middle).2 := by
  have herror := error_of_last_read h
  obtain ⟨i, c, hon, hforfeits⟩ := forfeits_of_read hyields (Prod.ext herror rfl)
  obtain ⟨attempts, hwidens⟩ := hmiddle.widens
  refine ⟨i, c, middle, attempts, _, hmiddle, hwidens, reads_read r cursor middle, hon, ?_,
    hforfeits⟩
  rw [herror]
  rfl

end

/-- Where the record of what was read since ends with the fault of a source, the last read has
ended in it. -/
theorem exists_loses
    (hreaches : store.Reaches store') {attempts : List Attempt}
    (hreads : store'.reads.toList = store.reads.toList ++ attempts) {grain : Grain}
    {cursor : Cursor}
    (hlast : attempts.getLast? = some ⟨grain, cursor, .error (.overclaimed conduct)⟩) :
    ∃ i c, store.Loses conduct i c store' := by
  have hrecord : store'.reads.toList.getLast? =
      some ⟨grain, cursor, .error (.overclaimed conduct)⟩ := by
    rw [hreads, List.getLast?_append, hlast]
    rfl
  cases hreaches with
  | refl =>
      obtain rfl : attempts = [] := List.append_cancel_left (hreads.symm.trans
        (List.append_nil _).symm)
      cases hlast
  | byte hmiddle hknown => exact loses_of_last_read Feed.yields_byte hmiddle hrecord
  | rune hmiddle hknown => exact loses_of_last_read Feed.yields_rune hmiddle hrecord

/-! ## After the fault -/

theorem untouched_of_closed
    {α : Type} {r : Reading α} (hr : r.Steady) (hchain : store.chains[i]? = some c.close)
    {cursor : Cursor} (hon : cursor.On i) : store.Untouched ((cursor.read r).run store).2 := by
  rcases Cursor.asks_of_read hr cursor store with
    ⟨hchains, hjournal⟩ | ⟨j, place, chain, feed, hanchor, hchain', hasks, hchains, hjournal⟩
  · exact ⟨hchains, hjournal⟩
  · obtain ⟨place', hanchor'⟩ := hon
    rw [hanchor] at hanchor'
    cases hanchor'
    rw [hchain] at hchain'
    cases hchain'
    obtain rfl := hasks.eq_of_closed rfl
    exact ⟨by rw [hchains, setIfInBounds_self hchain], hjournal⟩

/-- Cursors on an input that has ended see the bytes that are there, and those on other inputs what
they saw before. -/
theorem SeesIn.set_of_closed
    {contents : List Content} {cursor : Cursor} (h : store.SeesIn contents cursor)
    {content : Content} (hchain : store.chains[i]? = some c.close)
    (hcontent : c.close.content = content) : store.SeesIn (contents.set i content) cursor := by
  intro anchor hanchor
  obtain ⟨content', hcontent', hsees⟩ := h anchor hanchor
  by_cases hsame : i = anchor.chain
  · have hlt := (List.getElem?_eq_some_iff.1 hcontent').1
    refine ⟨content, ?_, Or.inl ?_⟩
    · rw [hsame, List.getElem?_set_self hlt]
    · obtain ⟨view, hview⟩ := h.exists_view hanchor
      cases hview with
      | attached hchain' hsound hmarks =>
          rw [← hsame, hchain] at hchain'
          cases hchain'
          exact hcontent ▸ hsame ▸ .attached (hsame ▸ hchain) hsound hmarks
  · exact ⟨content', by rw [List.getElem?_set_ne hsame, hcontent'], hsees⟩

end Store

/-! ## Faults of sources come from reads -/

/-- The run adds its reads to the record, and if it ends in the fault of a source, then the last of
these reads has ended in it. -/
def Store.Relays {ρ : Type} (x : Run ρ) : Prop :=
  ∀ store, ∃ attempts, (x.run store).2.reads.toList = store.reads.toList ++ attempts ∧
    ∀ conduct, (x.run store).1 = .error (.overclaimed conduct) →
      ∃ grain cursor, attempts.getLast? = some ⟨grain, cursor, .error (.overclaimed conduct)⟩

namespace Store.Relays

variable {α β ρ σ : Type}

theorem of_store_eq
    {x : Run ρ} (hstore : ∀ store, (x.run store).2 = store)
    (hfault : ∀ store fault, (x.run store).1 = .error fault → fault.Sourceless) : Relays x := by
  intro store
  refine ⟨[], by rw [hstore, List.append_nil], ?_⟩
  intro conduct h
  exact absurd rfl (hfault store _ h conduct)

theorem pure (value : ρ) : Relays (pure value : Run ρ) :=
  .of_store_eq (fun _ => rfl) (by rintro _ _ ⟨⟩)

theorem fault {fault : Fault} (h : fault.Sourceless) : Relays (.fault fault : Run ρ) := by
  refine .of_store_eq (fun _ => rfl) ?_
  rintro store _ ⟨⟩
  exact h

theorem bind {x : Run ρ} {f : ρ → Run σ} (hx : Relays x) (hf : ∀ value, Relays (f value)) :
    Relays (x >>= f) := by
  intro store
  obtain ⟨attempts, hreads, hlast⟩ := hx store
  rw [Action.run_bind]
  rcases hrun : x.run store with ⟨fault | value, store'⟩
  · rw [hrun] at hreads hlast
    refine ⟨attempts, hreads, ?_⟩
    rintro conduct ⟨⟩
    exact hlast conduct rfl
  · rw [hrun] at hreads
    obtain ⟨attempts', hreads', hlast'⟩ := hf value store'
    refine ⟨attempts ++ attempts', by rw [hreads', hreads, List.append_assoc], ?_⟩
    intro conduct h
    obtain ⟨grain, cursor, hattempt⟩ := hlast' conduct h
    refine ⟨grain, cursor, ?_⟩
    rw [List.getLast?_append, hattempt]
    rfl

theorem read (r : Reading α) (cursor : Cursor) : Relays (cursor.read r) := by
  intro store
  refine ⟨[_], by rw [reads_read, Array.toList_push], ?_⟩
  intro conduct h
  rw [h]
  exact ⟨r.grain, cursor, rfl⟩

theorem traverse (r : Reading α) (rule : TraversalRule α β) (gathered : β) (cursor : Cursor) :
    Relays ⟨Cursor.traverse r rule gathered cursor⟩ := by
  intro store
  dsimp only
  fun_induction Cursor.traverse r rule gathered cursor store with
  | case1 gathered cursor store hwants fault store' hread =>
      have hrelays := read r cursor store
      rw [hread] at hrelays
      obtain ⟨attempts, hreads, hlast⟩ := hrelays
      refine ⟨attempts, hreads, ?_⟩
      rintro conduct ⟨⟩
      exact hlast conduct rfl
  | case2 gathered cursor store hwants error store' hread =>
      have hrelays := read r cursor store
      rw [hread] at hrelays
      obtain ⟨attempts, hreads, -⟩ := hrelays
      refine ⟨attempts, hreads, ?_⟩
      rintro conduct ⟨⟩
  | case3 gathered cursor store hwants unit next store' hread hlt haccepts ih =>
      have hrelays := read r cursor store
      rw [hread] at hrelays
      obtain ⟨attempts, hreads, -⟩ := hrelays
      obtain ⟨attempts', hreads', hlast⟩ := ih
      refine ⟨attempts ++ attempts', by rw [hreads', hreads, List.append_assoc], ?_⟩
      intro conduct h
      obtain ⟨grain, cursor', hattempt⟩ := hlast conduct h
      refine ⟨grain, cursor', ?_⟩
      rw [List.getLast?_append, hattempt]
      rfl
  | case4 gathered cursor store hwants unit next store' hread hlt haccepts =>
      have hrelays := read r cursor store
      rw [hread] at hrelays
      obtain ⟨attempts, hreads, -⟩ := hrelays
      refine ⟨attempts, hreads, ?_⟩
      rintro conduct ⟨⟩
  | case5 gathered cursor store hwants =>
      refine ⟨[], by rw [List.append_nil], ?_⟩
      rintro conduct ⟨⟩

end Store.Relays

open Store

theorem Chain.sourceless_of_slice
    {c : Chain} {k start stop : Nat} {fault : Fault} (h : c.slice k start stop = .error fault) :
    fault.Sourceless := by
  rw [slice] at h
  split at h
  · cases h
    rintro _ ⟨⟩
  · split at h
    · cases h
    · cases h
      rintro _ ⟨⟩

theorem Chain.sourceless_of_sliceFrom
    {c : Chain} {k start : Nat} {fault : Fault} (h : c.sliceFrom k start = .error fault) :
    fault.Sourceless := by
  rw [sliceFrom] at h
  split at h
  · cases h
    rintro _ ⟨⟩
  · exact sourceless_of_slice h

theorem Chain.sourceless_of_span
    {c : Chain} {start stop : Place} {fault : Fault} (h : c.span start stop = .error fault) :
    fault.Sourceless := by
  simp only [span] at h
  split at h
  · exact sourceless_of_slice h
  · split at h
    · rcases hhead : c.sliceFrom start.chunk start.index with fault' | head
      · rw [hhead] at h
        cases h
        exact sourceless_of_sliceFrom hhead
      · rcases htail : c.slice stop.chunk 0 stop.index with fault' | tail
        · rw [hhead, htail] at h
          cases h
          exact sourceless_of_slice htail
        · rw [hhead, htail] at h
          cases h
    · cases h
      rintro _ ⟨⟩

/-- No source is asked for a span. -/
theorem Cursor.sourceless_of_bytesUntil
    {start stop : Cursor} {store : Store} {fault : Fault}
    (h : ((start.bytesUntil stop).run store).1 = .error fault) : fault.Sourceless := by
  rw [bytesUntil] at h
  split at h
  · cases h
    rintro _ ⟨⟩
  · split at h
    · cases h
      rintro _ ⟨⟩
    · cases h
      rintro _ ⟨⟩
    · split at h
      · dsimp only at h
        split at h
        · cases h
          rintro _ ⟨⟩
        · split at h
          · next hspan =>
            cases h
            exact Chain.sourceless_of_span hspan
          · split at h
            · cases h
            · cases h
              rintro _ ⟨⟩
      · cases h
        rintro _ ⟨⟩

theorem Store.heritable_relays : Heritable Relays where
  pure := .pure
  fault := .fault
  bind := .bind
  read _ := .read _
  traverse _ := .traverse _
  bytesUntil start stop :=
    .of_store_eq (Cursor.store_bytesUntil start stop)
      fun _ _ => Cursor.sourceless_of_bytesUntil

/-- The parser ends in the fault of a source only where its last read did. -/
def Parser.Relays {α : Type} (p : Parser α) : Prop :=
  ∀ entry, Store.Relays (p entry)

theorem Registers.relays_cursor (registers : Registers) (name : String) :
    Store.Relays (registers.cursor name) := by
  rw [cursor]
  split
  · apply Relays.pure
  · exact .fault (by rintro _ ⟨⟩)

/-- Every operation relays the faults of sources. -/
theorem Operation.relays_perform
    (grammar : Grammar) (registers : Registers) (operation : Operation) :
    Store.Relays (operation.perform grammar registers) := by
  have hsingle : ∀ {α : Type} (r : Reading α) source target report,
      Store.Relays (single registers r source target report) := by
    intro α r source target report
    refine (registers.relays_cursor source).bind ?_
    intro cursor
    refine (Relays.read r cursor).bind ?_
    rintro (error | ⟨unit, next⟩)
    · apply Relays.pure
    · apply Relays.pure
  have hseveral : ∀ {α : Type} (r : Reading α) source target limit report,
      Store.Relays (several registers r source target limit report) := by
    intro α r source target limit report
    refine (registers.relays_cursor source).bind ?_
    intro cursor
    exact (Relays.traverse r _ #[] cursor).bind fun _ => .pure _
  cases operation with
  | byte source target => apply hsingle
  | rune source target => apply hsingle
  | bytes source target limit => apply hseveral
  | runes source target limit =>
      rw [perform]
      apply hseveral
  | skipBytes source target limit =>
      rw [perform]
      apply hseveral
  | skipRunes source target limit =>
      rw [perform]
      apply hseveral
  | bytesUntil source stop =>
      refine (registers.relays_cursor source).bind fun first => ?_
      refine (registers.relays_cursor stop).bind fun last => ?_
      exact (heritable_relays.bytesUntil first last).bind fun _ => .pure _
  | textUntil source stop =>
      refine (registers.relays_cursor source).bind fun first => ?_
      refine (registers.relays_cursor stop).bind fun last => ?_
      refine (heritable_relays.textUntil first last).bind ?_
      rintro (error | text)
      · apply Relays.pure
      · apply Relays.pure
  | same first second =>
      refine (registers.relays_cursor first).bind fun a => ?_
      exact (registers.relays_cursor second).bind fun b => .pure _
  | copy source target => exact (registers.relays_cursor source).bind fun _ => .pure _
  | drop source => apply Relays.pure
  | position source => exact (registers.relays_cursor source).bind fun _ => .pure _
  | describe source =>
      refine (registers.relays_cursor source).bind fun cursor => ?_
      exact .of_store_eq (fun _ => rfl) (by rintro _ _ ⟨⟩)
  | parse source target expr failTarget =>
      refine (registers.relays_cursor source).bind fun entry => ?_
      refine (heritable_relays.grammar grammar registers.get? expr entry).bind ?_
      rintro (failure | ⟨value, cursor⟩)
      · apply Relays.pure
      · apply Relays.pure

namespace Session

variable {grammar : Grammar} {inputs : List (String × Input)} {store store' later : Store}
  {conduct : Conduct} {i : Nat} {c : Chain}

/-- From the fault of its source on, an input has ended. -/
theorem endsAs_of_forfeits
    (hreaches : (start grammar inputs).store.Reaches store)
    (hforfeits : store.Forfeits conduct i c store')
    (hreaches' : (start grammar inputs).store.Reaches store') (hlater : store'.Reaches later) :
    later.EndsAs (Input.contents inputs) i c := by
  obtain ⟨⟨before, journal, feed', hbefore, hasks, hdrops, -⟩, hchains⟩ := hforfeits
  have hclosed : later.chains[i]? = some c.close := by
    have hlt := (Array.getElem?_eq_some_iff.1 hbefore).1
    have hthen : store'.chains[i]? = some c.close := by
      rw [hchains, Array.getElem?_setIfInBounds_self_of_lt hlt]
    obtain ⟨c', hchain, hgrown⟩ := hlater.grown hthen
    rw [hchain, hgrown.closed rfl]
  have hcontent : c.close.content = ⟨c.bytes, .ended⟩ := by
    obtain ⟨input, first, -, hfirst, hpulls⟩ := exists_input hreaches hbefore
    have hlaid := (Input.laid_of_chain hfirst).pulls (hpulls.trans hasks.pulls)
    cases hdrops with
    | pull hsource hfill => exact (Chain.content_close hlaid.sound hsource hfill).2
  have hholds := (fresh_start grammar inputs).holds.reaches (hreaches'.trans hlater)
  have hsees : ∀ cursor, later.Known cursor →
      later.SeesIn ((Input.contents inputs).set i ⟨c.bytes, .ended⟩) cursor :=
    fun cursor hknown => (hholds.sees hknown).set_of_closed hclosed hcontent
  constructor
  · exact hclosed
  · intro cursor hknown
    exact conforms_read .bytes Content.faithful_bytes (hsees cursor hknown)
  · intro cursor hknown
    exact conforms_read .runes Content.faithful_runes (hsees cursor hknown)
  · intro cursor hon
    exact ⟨untouched_of_closed Reading.steady_bytes hclosed hon,
      untouched_of_closed Reading.steady_runes hclosed hon⟩

theorem endsAs_of_loses
    (hreaches : (start grammar inputs).store.Reaches store)
    (hloses : store.Loses conduct i c store')
    (hreaches' : (start grammar inputs).store.Reaches store') (hlater : store'.Reaches later) :
    later.EndsAs (Input.contents inputs) i c := by
  obtain ⟨middle, attempts, last, hmiddle, -, -, -, -, hforfeits⟩ := hloses
  exact endsAs_of_forfeits (hreaches.trans hmiddle) hforfeits hreaches' hlater

/-- An operation that ends in the fault of a source leaves the registers as they were, and the last
read that it made has ended in this fault. -/
theorem loses_of_step
    {session : Session} (h : session.registers.Known session.store) {operation : Operation}
    (hfault : (session.step operation).1 = .fault (.overclaimed conduct)) :
    (session.step operation).2.registers = session.registers ∧
      ∃ i c, session.store.Loses conduct i c (session.step operation).2.store := by
  obtain ⟨⟨hreaches, hcompletes⟩, -⟩ := Operation.proceeds_perform (fun _ => trivial) .refl h
    session.store.excuses_true trivial session.grammar operation
  obtain ⟨attempts, hreads, hlast⟩ :=
    operation.relays_perform session.grammar session.registers session.store
  rw [step] at hfault ⊢
  rcases hrun : (operation.perform session.grammar session.registers).run session.store with
    ⟨fault | ⟨report, registers⟩, store⟩
  · rw [hrun] at hfault hreaches hreads hlast
    cases hfault
    obtain ⟨grain, cursor, hattempt⟩ := hlast conduct rfl
    exact ⟨rfl, exists_loses hreaches hreads hattempt⟩
  · rw [hrun] at hfault hcompletes
    exact absurd hfault ((hcompletes _ rfl).report _)

/-- The fault of an overclaiming source is contained.  Whatever was read before, a read, a parse or
an operation of a session that ends in it leaves all registers as they were; what its earlier reads
did to the inputs they were from stays done, the last one keeps all chunks that were there or that
it had pulled itself, and touches no other input.  Afterwards, whatever else is done, the input ends
after the bytes of these chunks: every read from a known cursor gives what it gives for this
content, no chunk comes after them and no source is asked for one.

A parser may have others among its parts.  These are made of reads, and raise the fault of a source
only where their last read ended in it. -/
theorem overclaim_contained (grammar : Grammar) (inputs : List (String × Input)) :
    (∀ store, (start grammar inputs).store.Reaches store →
      (∀ cursor conduct store', store.Known cursor →
        (cursor.byte.run store = (.error (.overclaimed conduct), store') ∨
          cursor.rune.run store = (.error (.overclaimed conduct), store')) →
        ∃ i c, cursor.On i ∧ store.Forfeits conduct i c store' ∧
          ∀ later, store'.Reaches later → later.EndsAs (Input.contents inputs) i c) ∧
      ∀ {α : Type} (p : Parser α) entry conduct store',
        Parser.Composed (fun q => q.Reads store ∧ q.Relays) p → store.Known entry →
        (p entry).run store = (.error (.overclaimed conduct), store') →
        ∃ i c, store.Loses conduct i c store' ∧
          ∀ later, store'.Reaches later → later.EndsAs (Input.contents inputs) i c) ∧
    ∀ operations : List Operation,
      let session := ((start grammar inputs).run operations).2
      ∀ operation conduct, (session.step operation).1 = .fault (.overclaimed conduct) →
        let after := (session.step operation).2
        after.registers = session.registers ∧
          ∃ i c, session.store.Loses conduct i c after.store ∧
            ∀ rest, (after.run rest).2.store.EndsAs (Input.contents inputs) i c := by
  constructor
  · intro store hreaches
    constructor
    · intro cursor conduct store' hknown hfault
      have hafter : store.Reaches store' ∧
          ∃ i c, cursor.On i ∧ store.Forfeits conduct i c store' := by
        rcases hfault with hbyte | hrune
        · refine ⟨?_, forfeits_of_read Feed.yields_byte hbyte⟩
          have hread := Reading.usual_bytes hknown
          rwa [← Cursor.byte, hbyte] at hread
        · refine ⟨?_, forfeits_of_read Feed.yields_rune hrune⟩
          have hread := Reading.usual_runes hknown
          rwa [← Cursor.rune, hrune] at hread
      obtain ⟨hread, i, c, hon, hforfeits⟩ := hafter
      refine ⟨i, c, hon, hforfeits, ?_⟩
      intro later hlater
      exact endsAs_of_forfeits hreaches hforfeits (hreaches.trans hread) hlater
    · intro α p entry conduct store' hp hentry hrun
      have hproceeds := (hp.mono And.left).behaves store.excuses_true (.start hentry)
      obtain ⟨attempts, hreads, hlast⟩ :=
        heritable_relays.composed (fun hq => hq.2) hp entry store
      rw [hrun] at hproceeds hreads hlast
      have hparsed := hproceeds.1.1
      obtain ⟨grain, cursor, hattempt⟩ := hlast conduct rfl
      obtain ⟨i, c, hloses⟩ := exists_loses hparsed hreads hattempt
      refine ⟨i, c, hloses, ?_⟩
      intro later hlater
      exact endsAs_of_loses hreaches hloses (hreaches.trans hparsed) hlater
  · intro operations session operation conduct hfault after
    obtain ⟨hreaches, hregisters⟩ := run_reaches (fresh_start grammar inputs).known operations
    obtain ⟨hsame, i, c, hloses⟩ := loses_of_step hregisters hfault
    refine ⟨hsame, i, c, hloses, ?_⟩
    intro rest
    obtain ⟨hstep, hregisters'⟩ := step_reaches hregisters operation
    exact endsAs_of_loses hreaches hloses (hreaches.trans hstep)
      (run_reaches hregisters' rest).1

theorem report_of_rune
    {session : Session} {source target : String} {cursor : Cursor} {fault : Fault}
    (hget : session.registers.get? source = some cursor)
    (hread : (cursor.rune.run session.store).1 = .error fault) :
    (session.step (.rune source target)).1 = .fault fault := by
  rcases hrun : cursor.rune.run session.store with ⟨outcome, store⟩
  rw [hrun] at hread
  subst hread
  rw [Cursor.rune] at hrun
  simp only [step, Operation.perform, Operation.single, Registers.cursor, hget, Action.run_bind,
    Action.run_pure, hrun]

/-- A scalar value begins in the second piece, and instead of its end the source claims too much.
The first byte of the value can still be read, and the source was asked three times altogether. -/
theorem overclaim_contained_of_rune :
    let source : Source := ⟨.supplier,
      [.deliver [0x61] false, .deliver [0xC3] false, .overclaim 1, .deliver [0xA9] true]⟩
    let inputs : List (String × Input) := [("s", .streaming source default)]
    let session := ((start ⟨[]⟩ inputs).run [.rune "s" "t"]).2
    let after := (session.step (.rune "t" "t")).2
    let rest : List Operation := [.byte "t" "u", .rune "t" "t", .byte "u" "u"]
    (session.step (.rune "t" "t")).1 = .fault (.overclaimed .supplier) ∧
      (after.run rest).2.registers.get? "u" = some ⟨some ⟨0, ⟨2, 1⟩⟩, ⟨2, 1, 3⟩⟩ ∧
      (after.run rest).2.store.journal.requests = 3 ∧ after.registers = session.registers ∧
        ∃ i c, session.store.Loses .supplier i c after.store ∧
          (after.run rest).2.store.EndsAs (Input.contents inputs) i c := by
  intro source inputs session after rest
  have hfault : (session.step (.rune "t" "t")).1 = .fault (.overclaimed .supplier) := by
    have hget : session.registers.get? "t" = some ⟨some ⟨0, ⟨1, 1⟩⟩, ⟨1, 1, 2⟩⟩ := by
      decide +kernel
    exact report_of_rune hget (by decide +kernel)
  obtain ⟨hregisters, i, c, hloses, hends⟩ :=
    (overclaim_contained ⟨[]⟩ inputs).2 [.rune "s" "t"] (.rune "t" "t") .supplier hfault
  have hrest : ∀ rest, (after.run rest).2.store.EndsAs (Input.contents inputs) i c := hends
  exact ⟨hfault, by decide +kernel, by decide +kernel, hregisters, i, c, hloses, hrest rest⟩

end Session
end StreamParse
