import StreamParse.Proofs.Chain.Regular
import StreamParse.Proofs.Demand
import StreamParse.Proofs.Layout
import StreamParse.Proofs.Position
import StreamParse.Proofs.Reader

/-!
# Scalar values of regular streams

A regular stream never cuts a scalar value into more than two pieces, however small the chunks are
that its configuration asks for.  So reading one takes a single answer of the source where there is
one, and two where what is left of the input turns out to be none.
-/

namespace StreamParse

namespace Source

variable {room : Nat} {data : List UInt8}

theorem ends_nil (conduct : Conduct) (room : Nat) : Ends room ⟨conduct, []⟩ := by
  cases conduct with
  | supplier => rfl
  | reader => rfl

theorem pull_deliver_of_le
    (h : data.length ≤ room) (conduct : Conduct) (last : Bool) (rest : Script) :
    pull ⟨conduct, .deliver data last :: rest⟩ room =
      ⟨1, .filled data (conduct.closes data last), ⟨conduct, rest⟩⟩ := by
  cases conduct with
  | supplier => simp only [pull, Script.supply_deliver_of_le h, Conduct.closes]
  | reader => simp only [pull, Script.read_deliver_of_le h, Conduct.closes]

theorem pull_deliver_of_lt
    (hroom : 0 < room) (h : room < data.length) (conduct : Conduct) (last : Bool) (rest : Script) :
    pull ⟨conduct, .deliver data last :: rest⟩ room =
      ⟨1, .filled (data.take room) false, ⟨conduct, .deliver (data.drop room) last :: rest⟩⟩ := by
  cases conduct with
  | supplier => simp only [pull, Script.supply_deliver_of_lt h]
  | reader =>
      have hsome : (data.take room).isEmpty = false := by
        rw [List.isEmpty_eq_false_iff, ne_eq, List.take_eq_nil_iff, not_or]
        exact ⟨Nat.ne_of_gt hroom, List.ne_nil_of_length_pos (Nat.zero_lt_of_lt h)⟩
      simp only [pull, Script.read_deliver_of_lt h, hsome]

/-- A source that has one piece of data and nothing else is regular, however long the piece is. -/
theorem regular_piece (hroom : 0 < room) (conduct : Conduct) (data : List UInt8) (last : Bool) :
    Regular room ⟨conduct, [.deliver data last]⟩ data := by
  induction hlength : data.length using Nat.strong_induction_on generalizing data with
  | h n ih =>
      rcases Nat.lt_or_ge room data.length with hlong | hshort
      · have hpull := pull_deliver_of_lt hroom hlong conduct last []
        have hless : (data.drop room).length < n := by
          rw [List.length_drop]
          omega
        have hregular : Regular room ⟨conduct, [.deliver data last]⟩
            (data.take room ++ data.drop room) := by
          refine .full (congrArg Pull.answer hpull) (List.length_take_of_le hlong.le) ?_ ?_
          · rintro ⟨⟩
          · intro _
            rw [hpull]
            exact ih _ hless _ rfl
        rwa [List.take_append_drop] at hregular
      · have hpull := pull_deliver_of_le hshort conduct last []
        have hanswer := congrArg Pull.answer hpull
        have hends : (pull ⟨conduct, [.deliver data last]⟩ room).rest.Ends room := by
          rw [hpull]
          exact ends_nil conduct room
        rcases Nat.lt_or_eq_of_le hshort with hlt | hfull
        · exact .rest hanswer hlt fun _ => hends
        · have hregular : Regular room ⟨conduct, [.deliver data last]⟩ (data ++ []) :=
            .full hanswer hfull (fun _ => rfl) fun _ => hends.regular hroom
          rwa [List.append_nil] at hregular

end Source

/-! ## Reading a scalar value -/

/-- A scalar value is read from a cursor of a regular stream.  The read has a result.  If it gives a
scalar value, the source answered at most once, and the value is in the chunk of the cursor and the
one after it; if it fails, the source answered at most twice. -/
structure Store.ReadsEvenly (store : Store) (anchor : Anchor) (cursor : Cursor) : Prop where
  total : ∃ parsed, (cursor.rune.run store).1 = .ok parsed
  success : ∀ scalar next, (cursor.rune.run store).1 = .ok (.ok (scalar, next)) →
    (cursor.rune.run store).2.journal.answers.length ≤ store.journal.answers.length + 1 ∧
      ∃ c, (cursor.rune.run store).2.chains[anchor.chain]? = some c ∧
        String.utf8EncodeChar scalar <+: (c.pair anchor.place.chunk).drop anchor.place.index
  failure : ∀ error, (cursor.rune.run store).1 = .ok (.error error) →
    (cursor.rune.run store).2.journal.answers.length ≤ store.journal.answers.length + 2

namespace Store.Rests

variable {store : Store} {c : Chain} {anchor : Anchor} {cursor : Cursor}

theorem readsEvenly (h : store.Rests c anchor cursor) (heven : c.Even) :
    store.ReadsEvenly anchor cursor := by
  obtain ⟨n, c', feed, hchain, hdraws, hchains, hjournal⟩ := Cursor.draws_rune h
  obtain rfl : c = c' := Option.some.inj (h.chain_eq.symm.trans hchain)
  obtain ⟨m, hm, hanswers, htwo⟩ := hdraws.exists_answers heven h.marks
  rw [← hjournal] at hanswers
  refine ⟨?_, ?_, ?_⟩
  · cases hresult : (cursor.rune.run store).1 with
    | ok parsed => exact ⟨parsed, rfl⟩
    | error fault =>
        obtain ⟨conduct, hending, -⟩ :=
          Cursor.overclaimed_of_read Reading.Account.runes h.sees hresult
        exact absurd hending (h.safe conduct)
  · intro scalar next hread
    have hscalar := Content.isPrefix_of_rune (find_of_read .runes h.sees hread)
    constructor
    · -- A scalar value is there, so nothing had to be asked about what is left of the input.
      have hne : m ≠ 2 := by
        intro hm'
        have hundecided := (Grain.undecided_rune_iff _).1 (htwo hm')
        rw [Utf8.classify_eq_scalar_iff.2 hscalar] at hundecided
        cases hundecided
      have hle : m ≤ 1 := Nat.le_of_lt_succ (Nat.lt_of_le_of_ne hm hne)
      rw [hanswers]
      exact Nat.add_le_add_left hle _
    · have hextends := hdraws.extends h.sound
      have hmarks := Chain.marks_of_isPrefix hextends.chunks h.marks
      have heven' := hdraws.even heven
      have hlt := (Array.getElem?_eq_some_iff.1 h.chain_eq).1
      refine ⟨feed.chain, ?_, heven'.isPrefix_pair hmarks ?_⟩
      · rw [hchains]
        exact Array.getElem?_setIfInBounds_self_of_lt hlt
      · rw [← hextends.content] at hscalar
        exact Chain.isPrefix_ahead hextends.sound hmarks hdraws.not_demands hscalar
  · intro error _
    rw [hanswers]
    exact Nat.add_le_add_left hm _

end Store.Rests

/-! ## Sessions -/

namespace Chain

theorem even_streaming {source : Source} {config : Config} {data : List UInt8}
    (h : source.Regular config.room data) : (streaming source config).Even where
  sound := sound_singleton rfl (some source) config
  full_or_last {k chunk} hk := by
    have hlt := (Array.getElem?_eq_some_iff.1 hk).1
    exact absurd hlt (by simp [streaming])
  regular hsource := by
    cases hsource
    exact ⟨data, h⟩
  ended := by rw [content_streaming, h.content_eq config.room_pos]

end Chain

namespace Session

open Store

variable {grammar : Grammar} {inputs : List (String × Input)} {store : Store} {cursor : Cursor}
  {anchor : Anchor} {source : Source} {config : Config} {data : List UInt8}

/-- Whatever was read, the chain of a regular stream is even. -/
theorem even_of_reaches
    (hreaches : (start grammar inputs).store.Reaches store) {i : Nat}
    (hinput : (Input.attached inputs)[i]? = some (.streaming source config))
    (hregular : source.Regular config.room data) {c : Chain} (hchain : store.chains[i]? = some c) :
    c.Even := by
  obtain ⟨input, first, hinput', hfirst, hpulls⟩ := exists_input hreaches hchain
  rw [hinput] at hinput'
  cases hinput'
  cases hfirst
  exact (Chain.even_streaming hregular).pulls hpulls

theorem readsEvenly_of_known
    (hreaches : (start grammar inputs).store.Reaches store) (hknown : store.Known cursor)
    (hanchor : cursor.anchor = some anchor)
    (hinput : (Input.attached inputs)[anchor.chain]? = some (.streaming source config))
    (hregular : source.Regular config.room data) : store.ReadsEvenly anchor cursor := by
  have hholds := (fresh_start grammar inputs).holds.reaches hreaches
  obtain ⟨view, hview⟩ := (hholds.sees hknown).exists_view hanchor
  cases hview with
  | @attached c place position hchain hsound hmarks =>
      have heven := even_of_reaches hreaches hinput hregular hchain
      have hplace : place = anchor.place := congrArg Anchor.place (Option.some.inj hanchor)
      refine Rests.readsEvenly (c := c) ⟨hanchor, hchain, hsound, hplace ▸ hmarks, ?_⟩ heven
      intro conduct
      rw [heven.ended]
      rintro ⟨⟩

/-- On regular streams the least size of a chunk keeps every scalar value within two chunks.
Whatever was read before, a scalar value is read from a known cursor with one answer of the source
at most, and what is no scalar value is told from one with two at most.  So it is with every cursor
that a register holds after any operations. -/
theorem runes_within_two_chunks (grammar : Grammar) (inputs : List (String × Input)) :
    (∀ store, (start grammar inputs).store.Reaches store →
      ∀ cursor anchor source config data, store.Known cursor → cursor.anchor = some anchor →
        (Input.attached inputs)[anchor.chain]? = some (.streaming source config) →
          source.Regular config.room data → store.ReadsEvenly anchor cursor) ∧
    ∀ operations : List Operation,
      let session := ((start grammar inputs).run operations).2
      ∀ name cursor anchor source config data, session.registers.get? name = some cursor →
        cursor.anchor = some anchor →
          (Input.attached inputs)[anchor.chain]? = some (.streaming source config) →
            source.Regular config.room data → session.store.ReadsEvenly anchor cursor := by
  constructor
  · intro store hreaches cursor anchor source config data hknown hanchor hinput hregular
    exact readsEvenly_of_known hreaches hknown hanchor hinput hregular
  · intro operations session name cursor anchor source config data hget hanchor hinput hregular
    obtain ⟨hreaches, hregisters⟩ :=
      run_reaches (fresh_start grammar inputs).known operations
    exact readsEvenly_of_known hreaches (hregisters.get? hget) hanchor hinput hregular

/-- Of two readers that are asked for chunks of eight bytes, one has a scalar value that is cut
after its first byte, and the other ends within it.  Seven bytes were read from each. -/
theorem runes_within_two_chunks_of_cut :
    let before : List UInt8 := List.replicate 7 0x61
    let source (data : List UInt8) : Source := ⟨.reader, [.deliver data false]⟩
    let inputs : List (String × Input) :=
      [("s", .streaming (source (before ++ [0xE2, 0x82, 0xAC])) ⟨3⟩),
        ("t", .streaming (source (before ++ [0xE2, 0x82])) ⟨3⟩)]
    let session := ((start ⟨[]⟩ inputs).run [.bytes "s" "s" (some 7), .bytes "t" "t" (some 7)]).2
    let first : Cursor := ⟨some ⟨0, ⟨1, 7⟩⟩, ⟨7, 1, 8⟩⟩
    let second : Cursor := ⟨some ⟨1, ⟨1, 7⟩⟩, ⟨7, 1, 8⟩⟩
    session.store.journal.answers.length = 2 ∧
      (first.rune.run session.store).2.journal.answers.length = 3 ∧
        (second.rune.run session.store).2.journal.answers.length = 4 ∧
          session.store.ReadsEvenly ⟨0, ⟨1, 7⟩⟩ first ∧
            session.store.ReadsEvenly ⟨1, ⟨1, 7⟩⟩ second := by
  intro before source inputs session first second
  have hregular := fun data => Source.regular_piece (Config.room_pos ⟨3⟩) .reader data false
  obtain ⟨-, hrun⟩ := runes_within_two_chunks ⟨[]⟩ inputs
  have hevenly := hrun [.bytes "s" "s" (some 7), .bytes "t" "t" (some 7)]
  exact ⟨by decide +kernel, by decide +kernel, by decide +kernel,
    hevenly "s" first _ _ _ _ (by decide +kernel) rfl rfl (hregular _),
    hevenly "t" second _ _ _ _ (by decide +kernel) rfl rfl (hregular _)⟩

end Session
end StreamParse
