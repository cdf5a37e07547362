import StreamParse.Proofs.Chain.Demand
import StreamParse.Proofs.Cursor.Replay
import StreamParse.Proofs.Onward

/-!
# Sessions pull on demand

Whatever was read before, a read from a known cursor pulls exactly the chunks that it demands.  The
input between two known cursors was read to get to the second one, so having it pulls nothing, not
even where it has to be read again to find the place of an error.
-/

namespace StreamParse

namespace Chain

variable {c : Chain} {p q : Place} {a b : Nat}

theorem between_isPrefix_ahead (hp : c.Marks p a) (hq : c.Marks q b) (hle : a ≤ b) :
    c.content.between a b <+: c.ahead p := by
  have hfirst := congrArg List.length (drop_content_eq_ahead hp)
  have hsecond := congrArg List.length (drop_content_eq_ahead hq)
  have hbound := marks_le_length hq
  simp only [List.length_drop, List.length_append] at hfirst hsecond
  rw [Content.between, drop_content_eq_ahead hp, List.take_append_of_le_length (by omega)]
  exact List.take_prefix _ _

theorem ahead_eq_drop (hp : c.Marks p a) {n : Nat} (hq : c.Marks q (a + n))
    (hle : n ≤ (c.ahead p).length) : c.ahead q = (c.ahead p).drop n := by
  have hrest := drop_content_eq_ahead hq
  rw [← List.drop_drop, drop_content_eq_ahead hp, List.drop_append_of_le_length hle] at hrest
  exact (List.append_cancel_right hrest).symm

theorem not_demands_of_isPrefix {scalar : Char}
    (h : String.utf8EncodeChar scalar <+: c.ahead p) : ¬ c.Demands .rune p := by
  rintro ⟨hundecided, -⟩
  rw [Grain.undecided_rune_iff, Utf8.classify_eq_scalar_iff.2 h] at hundecided
  cases hundecided

end Chain

namespace Store

/-- From one store to the other, `n` chunks were pulled onto the chain of a place, exactly as long
as reading a unit from there demanded one. -/
def Draws (store : Store) (grain : Grain) (anchor : Anchor) (n : Nat) (store' : Store) : Prop :=
  ∃ c feed, store.chains[anchor.chain]? = some c ∧
    Feed.Draws grain anchor.place n ⟨c, store.journal⟩ feed ∧
      store'.chains = store.chains.setIfInBounds anchor.chain feed.chain ∧
        store'.journal = feed.journal

/-- All chains are as they were, and no source was asked. -/
structure Untouched (store store' : Store) : Prop where
  chains : store'.chains = store.chains
  journal : store'.journal = store.journal

variable {store store' store'' : Store} {grain : Grain} {anchor : Anchor} {n : Nat} {c : Chain}

theorem Untouched.refl (store : Store) : store.Untouched store := ⟨rfl, rfl⟩

theorem Untouched.trans (h : store.Untouched store') (h' : store'.Untouched store'') :
    store.Untouched store'' :=
  ⟨h'.chains.trans h.chains, h'.journal.trans h.journal⟩

theorem Draws.untouched
    (h : store.Draws grain anchor n store') (hchain : store.chains[anchor.chain]? = some c)
    (hdemands : ¬ c.Demands grain anchor.place) : store.Untouched store' := by
  obtain ⟨c', feed, hchain', hdraws, hchains, hjournal⟩ := h
  rw [hchain] at hchain'
  cases hchain'
  obtain ⟨-, rfl⟩ := hdraws.eq_of_not_demands hdemands
  exact ⟨by rw [hchains, setIfInBounds_self hchain], hjournal⟩

theorem Draws.requests_lt_iff
    (h : store.Draws grain anchor n store') (hchain : store.chains[anchor.chain]? = some c) :
    store.journal.requests < store'.journal.requests ↔ c.Demands grain anchor.place := by
  obtain ⟨c', feed, hchain', hdraws, -, hjournal⟩ := h
  rw [hchain] at hchain'
  cases hchain'
  rw [hjournal]
  exact hdraws.requests_lt_iff

/-- The cursor stands at a place of a chain whose source does not overclaim. -/
structure Rests (store : Store) (c : Chain) (anchor : Anchor) (cursor : Cursor) : Prop where
  anchor_eq : cursor.anchor = some anchor
  chain_eq : store.chains[anchor.chain]? = some c
  sound : c.Sound
  marks : c.Marks anchor.place cursor.position.offset
  safe : ∀ conduct, c.content.ending ≠ .overclaimed conduct

namespace Rests

variable {cursor next : Cursor}

theorem sees (h : store.Rests c anchor cursor) :
    store.Sees anchor.chain (some c.content) cursor := by
  obtain ⟨a, position⟩ := cursor
  obtain rfl : a = some anchor := h.anchor_eq
  exact .attached h.chain_eq h.sound h.marks

theorem exists_of_sees (h : store.Rests c anchor cursor) (huntouched : store.Untouched store')
    (hsees : store'.Sees anchor.chain (some c.content) next) :
    ∃ place, store'.Rests c ⟨anchor.chain, place⟩ next := by
  generalize hview : some c.content = view at hsees
  cases hsees with
  | detached => cases hview
  | @attached c' place position hchain hsound hmarks =>
      rw [huntouched.chains, h.chain_eq] at hchain
      cases hchain
      exact ⟨place, rfl, huntouched.chains ▸ h.chain_eq, hsound, hmarks, h.safe⟩

end Rests

end Store

namespace Cursor

open Store

variable {store : Store} {cursor : Cursor} {anchor : Anchor} {c : Chain}

theorem draws_byte (h : store.Rests c anchor cursor) :
    ∃ n ≤ 1, store.Draws .byte anchor n (cursor.byte.run store).2 := by
  obtain ⟨n, hn, hdraws⟩ := (Feed.draws_byte h.sound h.marks h.safe :
    ∃ n ≤ 1, Feed.Draws .byte anchor.place n ⟨c, store.journal⟩ _)
  exact ⟨n, hn, c, _, h.chain_eq, hdraws, store_read .bytes h.anchor_eq h.chain_eq⟩

theorem draws_rune (h : store.Rests c anchor cursor) :
    ∃ n, store.Draws .rune anchor n (cursor.rune.run store).2 := by
  obtain ⟨n, hdraws⟩ := (Feed.draws_rune h.sound h.marks h.safe :
    ∃ n, Feed.Draws .rune anchor.place n ⟨c, store.journal⟩ _)
  exact ⟨n, c, _, h.chain_eq, hdraws, store_read .runes h.anchor_eq h.chain_eq⟩

theorem untouched_seek
    {text : List Char} (h : store.Rests c anchor cursor)
    (htext : Utf8.encode text <+: c.ahead anchor.place) {offset : Nat}
    (hoffset : offset = cursor.position.offset + (Utf8.encode text).length) :
    store.Untouched ((cursor.seek offset).run store).2 := by
  simp only [seek, Action.run_bind]
  induction text generalizing store cursor anchor with
  | nil =>
      rw [traverse_eq, if_neg (by simp [hoffset, Utf8.encode])]
      exact .refl store
  | cons scalar text ih =>
      have hsize : (String.utf8EncodeChar scalar).length = scalar.utf8Size :=
        String.length_utf8EncodeChar scalar
      have hpos := scalar.utf8Size_pos
      rw [Utf8.encode_cons] at htext hoffset
      have hscalar := (List.prefix_append _ _).trans htext
      -- The scalar value is there, so it is read and nothing is pulled for it.
      have hread := Reading.Account.runes.comes_read h.sees
      rw [reference_runes_of_isPrefix (hscalar.trans (by
        rw [Chain.drop_content_eq_ahead h.marks]
        exact List.prefix_append _ _))] at hread
      obtain ⟨next, store', hresult, hposition, -, -, hsees⟩ := hread.exists_of_success
      have huntouched : store.Untouched store' := by
        obtain ⟨n, hdraws⟩ := draws_rune h
        have hsame := hdraws.untouched h.chain_eq (Chain.not_demands_of_isPrefix hscalar)
        rwa [rune, hresult] at hsame
      obtain ⟨place, hnext⟩ := h.exists_of_sees huntouched hsees
      have hoffset' : next.position.offset = cursor.position.offset + scalar.utf8Size := by
        rw [hposition, Position.offset_advance]
      have hahead : c.ahead place = (c.ahead anchor.place).drop scalar.utf8Size :=
        Chain.ahead_eq_drop h.marks (hoffset' ▸ hnext.marks) (hsize ▸ hscalar.length_le)
      have hrest : Utf8.encode text <+: c.ahead place := by
        obtain ⟨more, hmore⟩ := htext
        refine ⟨more, ?_⟩
        rw [hahead, ← hmore, List.append_assoc, List.drop_left' hsize]
      have hseek := ih hnext hrest (by
        rw [hoffset, List.length_append, hsize, hoffset']
        omega)
      rw [traverse_eq, if_pos (by simp [hoffset]; omega), hresult]
      exact huntouched.trans hseek

/-- A sequence that is known to be malformed is reported, and nothing is pulled for it. -/
theorem run_rune_of_malformed
    (h : store.Rests c anchor cursor)
    (hmalformed : Utf8.classify (c.ahead anchor.place) = .malformed) :
    (cursor.rune.run store).1 = .ok (.error (.invalidEncoding cursor.position)) ∧
      store.Untouched (cursor.rune.run store).2 := by
  constructor
  · have hfound : c.content.rune cursor.position.offset = .ok (.error .malformed) := by
      rw [Content.rune, Chain.drop_content_eq_ahead h.marks,
        Utf8.classify_append (by simp [hmalformed]), hmalformed]
    have hread := Reading.Account.runes.comes_read h.sees
    simp only [Reading.Account.reference, Reading.Account.runes, hfound] at hread
    rw [rune]
    generalize (cursor.read .runes).run store = result at hread ⊢
    cases hread with
    | error => rfl
  · obtain ⟨n, hdraws⟩ := draws_rune h
    refine hdraws.untouched h.chain_eq ?_
    rintro ⟨hundecided, -⟩
    rw [Grain.undecided_rune_iff, hmalformed] at hundecided
    cases hundecided

/-- Having the input between two cursors as text pulls nothing, though some of it may be read once
more. -/
theorem untouched_textUntil
    {stop : Cursor} {place : Place} (h : store.Rests c anchor cursor)
    (hstop : store.Rests c ⟨anchor.chain, place⟩ stop)
    (hle : cursor.position.offset ≤ stop.position.offset) :
    store.Untouched ((cursor.textUntil stop).run store).2 := by
  rcases hdecode : Utf8.decode
    (c.content.between cursor.position.offset stop.position.offset) with ⟨text, rest⟩
  have hbytes := Utf8.encode_append_of_decode hdecode
  have htext : Utf8.encode text <+: c.ahead anchor.place := by
    refine (List.prefix_append _ rest).trans ?_
    rw [hbytes]
    exact Chain.between_isPrefix_ahead h.marks hstop.marks hle
  have hlength : (c.content.between cursor.position.offset stop.position.offset).toArray.size -
      rest.length = (Utf8.encode text).length := by
    rw [← hbytes]
    simp
  have hseek := untouched_seek h htext rfl
  simp only [textUntil, Action.run_bind, run_bytesUntil h.sees hstop.sees hle, hdecode, hlength]
  split
  · exact .refl store
  · rw [Action.run_bind]
    rcases hfound :
        (cursor.seek (cursor.position.offset + (Utf8.encode text).length)).run store with
      ⟨fault | found, store'⟩
    · rwa [hfound] at hseek
    · rwa [hfound] at hseek

end Cursor

/-! ## Sessions -/

/-- A cursor on a chain is read from on demand.  A read of a byte pulls at most one chunk and a read
of a scalar value as many as it demands one after the other; the source is asked if one is demanded
and not otherwise.  What is known to be no encoding is reported without that, and the input up to
another cursor is had without that. -/
structure Store.OnDemand (store : Store) (c : Chain) (anchor : Anchor) (cursor : Cursor) :
    Prop where
  chain : store.chains[anchor.chain]? = some c
  byte : ∃ n ≤ 1, store.Draws .byte anchor n (cursor.byte.run store).2
  rune : ∃ n, store.Draws .rune anchor n (cursor.rune.run store).2
  byte_asks_iff :
    store.journal.requests < (cursor.byte.run store).2.journal.requests ↔
      c.Demands .byte anchor.place
  rune_asks_iff :
    store.journal.requests < (cursor.rune.run store).2.journal.requests ↔
      c.Demands .rune anchor.place
  malformed :
    ¬ Grain.rune.Undecided (c.ahead anchor.place) →
      (∀ scalar, ¬ String.utf8EncodeChar scalar <+: c.ahead anchor.place) →
        (cursor.rune.run store).1 = .ok (.error (.invalidEncoding cursor.position)) ∧
          store.Untouched (cursor.rune.run store).2
  bytesUntil : ∀ stop, store.Known stop → store.Untouched ((cursor.bytesUntil stop).run store).2
  textUntil : ∀ stop, store.Known stop → store.Untouched ((cursor.textUntil stop).run store).2

namespace Session

open Store

variable {grammar : Grammar} {inputs : List (String × Input)} {store : Store} {cursor : Cursor}
  {anchor : Anchor} {content : Content}

theorem exists_rests
    (hreaches : (start grammar inputs).store.Reaches store) (hknown : store.Known cursor)
    (hanchor : cursor.anchor = some anchor)
    (hcontent : (Input.contents inputs)[anchor.chain]? = some content)
    (hsafe : ∀ conduct, content.ending ≠ .overclaimed conduct) :
    ∃ c, store.Rests c anchor cursor := by
  have hstands : Stands grammar inputs anchor.chain store cursor :=
    ⟨hreaches, hknown, anchor.place, hanchor⟩
  have hsees := hstands.sees hcontent hsafe
  cases hsees with
  | @attached c place position hchain hsound hmarks =>
      have hplace : place = anchor.place := congrArg Anchor.place (Option.some.inj hanchor)
      exact ⟨c, hanchor, hchain, hsound, hplace ▸ hmarks, hsafe⟩

theorem untouched_textUntil_of_known
    (hreaches : (start grammar inputs).store.Reaches store) {c : Chain}
    (h : store.Rests c anchor cursor)
    (hcontent : (Input.contents inputs)[anchor.chain]? = some content)
    (hsafe : ∀ conduct, content.ending ≠ .overclaimed conduct) {stop : Cursor}
    (hstop : store.Known stop) : store.Untouched ((cursor.textUntil stop).run store).2 := by
  -- Where the span is none, nothing is read again.
  have hfaulted : ∀ fault, (cursor.bytesUntil stop).run store = (.error fault, store) →
      store.Untouched ((cursor.textUntil stop).run store).2 := by
    intro fault hrun
    simp only [Cursor.textUntil, Action.run_bind, hrun]
    exact .refl store
  have hspans := Cursor.spans_bytesUntil store cursor stop
  generalize hrun : (cursor.bytesUntil stop).run store = result at hspans
  cases hspans with
  | reversed => exact hfaulted _ hrun
  | detached => exact hfaulted _ hrun
  | unreachable => exact hfaulted _ hrun
  | within result hon hon' hle =>
      obtain ⟨place, hplace⟩ := hon
      obtain ⟨place', hplace'⟩ := hon'
      obtain rfl : anchor = ⟨_, place⟩ := Option.some.inj (h.anchor_eq.symm.trans hplace)
      obtain ⟨c', hrests⟩ := exists_rests hreaches hstop hplace' hcontent hsafe
      obtain rfl : c = c' := Option.some.inj (h.chain_eq.symm.trans hrests.chain_eq)
      exact Cursor.untouched_textUntil h hrests hle

theorem onDemand_of_known
    (hreaches : (start grammar inputs).store.Reaches store) (hknown : store.Known cursor)
    (hanchor : cursor.anchor = some anchor)
    (hcontent : (Input.contents inputs)[anchor.chain]? = some content)
    (hsafe : ∀ conduct, content.ending ≠ .overclaimed conduct) :
    ∃ c, store.OnDemand c anchor cursor := by
  obtain ⟨c, h⟩ := exists_rests hreaches hknown hanchor hcontent hsafe
  obtain ⟨n, hn, hbyte⟩ := Cursor.draws_byte h
  obtain ⟨m, hrune⟩ := Cursor.draws_rune h
  refine ⟨c, h.chain_eq, ⟨n, hn, hbyte⟩, ⟨m, hrune⟩, hbyte.requests_lt_iff h.chain_eq,
    hrune.requests_lt_iff h.chain_eq, ?_, ?_, ?_⟩
  · intro hdecided hnone
    refine Cursor.run_rune_of_malformed h ?_
    cases hverdict : Utf8.classify (c.ahead anchor.place) with
    | malformed => rfl
    | scalar scalar => exact absurd (Utf8.classify_eq_scalar_iff.1 hverdict) (hnone scalar)
    | incomplete => exact absurd ((Grain.undecided_rune_iff _).2 hverdict) hdecided
  · intro stop _
    rw [Cursor.store_bytesUntil]
    exact .refl store
  · intro stop hstop
    exact untouched_textUntil_of_known hreaches h hcontent hsafe hstop

/-- Pulls are demand driven.  Whatever was read before, a known cursor on an input whose source does
not overclaim is read from on demand.  So it is with every cursor that a register holds after any
operations. -/
theorem pulls_on_demand (grammar : Grammar) (inputs : List (String × Input)) :
    (∀ store, (start grammar inputs).store.Reaches store →
      ∀ cursor anchor content, store.Known cursor → cursor.anchor = some anchor →
        (Input.contents inputs)[anchor.chain]? = some content →
          (∀ conduct, content.ending ≠ .overclaimed conduct) →
            ∃ c, store.OnDemand c anchor cursor) ∧
    ∀ operations : List Operation,
      let session := ((start grammar inputs).run operations).2
      ∀ name cursor anchor content, session.registers.get? name = some cursor →
        cursor.anchor = some anchor →
          (Input.contents inputs)[anchor.chain]? = some content →
            (∀ conduct, content.ending ≠ .overclaimed conduct) →
              ∃ c, session.store.OnDemand c anchor cursor := by
  constructor
  · intro store hreaches cursor anchor content hknown hanchor hcontent hsafe
    exact onDemand_of_known hreaches hknown hanchor hcontent hsafe
  · intro operations session name cursor anchor content hget hanchor hcontent hsafe
    obtain ⟨hreaches, hregisters⟩ :=
      run_reaches (fresh_start grammar inputs).known operations
    exact onDemand_of_known hreaches (hregisters.get? hget) hanchor hcontent hsafe

/-- After a byte was read, the bytes of a sequence come one by one.  The next byte demands one chunk
and the next scalar value three, so that many requests are made. -/
theorem pulls_on_demand_of_pieces :
    let source : Source :=
      ⟨.supplier, [.deliver [0x61] false, .deliver [0xE2] false, .deliver [0x82] false,
        .deliver [0xAC, 0x62] true]⟩
    let inputs : List (String × Input) := [("s", .streaming source default)]
    let store := ((start ⟨[]⟩ inputs).run [.byte "s" "t"]).2.store
    let anchor : Anchor := ⟨0, ⟨1, 1⟩⟩
    let cursor : Cursor := ⟨some anchor, ⟨1, 1, 2⟩⟩
    store.journal.requests = 1 ∧ (cursor.byte.run store).2.journal.requests = 2 ∧
      (cursor.rune.run store).2.journal.requests = 4 ∧ ∃ c, store.OnDemand c anchor cursor := by
  intro source inputs
  have hended : (source.content 1024).ending = .ended := by decide +kernel
  have hsafe : ∀ conduct, (source.content 1024).ending ≠ .overclaimed conduct := by
    rw [hended]
    rintro conduct ⟨⟩
  exact ⟨by decide +kernel, by decide +kernel, by decide +kernel,
    (pulls_on_demand ⟨[]⟩ inputs).2 [.byte "s" "t"] "t" _ _ _ (by decide +kernel) rfl rfl hsafe⟩

end Session
end StreamParse
