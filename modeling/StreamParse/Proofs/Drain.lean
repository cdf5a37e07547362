import StreamParse.Proofs.Chain.Drain
import StreamParse.Proofs.Layout

/-!
# Operations decide how far a source is drained

In a session with one source the journal is, at every time, the beginning of the journal that
reading the source byte by byte from its start to its end leaves.  So it is with the answers that
the source gave and with the notes of the log.  What the operations decide is how long this
beginning is.
-/

namespace StreamParse

/-- The source of an input with its configuration, if it has one. -/
def Input.stream? : Input → Option (Source × Config)
  | .streaming source config => some (source, config)
  | _ => none

def Input.streams (inputs : List (String × Input)) : List (Source × Config) :=
  inputs.filterMap (·.2.stream?)

theorem Input.source_of_chain
    {input : Input} {c : Chain} (hchain : input.chain = some c) (h : input.stream? = none) :
    c.source = none := by
  cases input with
  | complete bytes =>
      cases hchain
      rfl
  | streaming source config => cases h
  | detached => cases hchain

/-- What a journal says of the only source, given the journal of reading the source out: it is the
beginning of that one, it consists of rounds, and once the source is closed nothing is asked. -/
structure Journal.DrainsAs (journal whole : Journal) (room : Nat) : Prop where
  events : journal.toList <+: whole.toList
  answers : journal.answers <+: whole.answers
  notes : journal.notes <+: whole.notes
  rounds : ∃ rounds : List Round, (∀ round ∈ rounds, round.answer ≠ .filled [] false) ∧
    journal.answers = rounds.flatMap Round.answers ∧
      journal.notes = rounds.flatMap (Round.notes room)
  heeded : ∀ before answer after, journal.toList = before ++ .answered answer :: after →
    answer.Closes → ∀ room, .asked room ∉ after

namespace Source

/-- The pulls of a source are rounds. -/
theorem exists_rounds
    {config : Config} {fills : List Fill}
    (h : ∀ fill ∈ fills, ∃ source : Source, fill = source.fill config 0) :
    ∃ rounds : List Round, (∀ round ∈ rounds, round.answer ≠ .filled [] false) ∧
      (fills.flatMap (·.events)).filterMap Event.answer? = rounds.flatMap Round.answers ∧
        (fills.flatMap (·.events)).filterMap Event.note? =
          rounds.flatMap (Round.notes config.room) := by
  induction fills with
  | nil => exact ⟨[], by simp, rfl, rfl⟩
  | cons fill fills ih =>
      obtain ⟨source, rfl⟩ := h _ List.mem_cons_self
      obtain ⟨round, hdecides, hanswers, hnotes⟩ := exists_round config 0 source
      obtain ⟨rounds, hdecide, hanswers', hnotes'⟩ := ih fun fill hmem => h fill (.tail _ hmem)
      refine ⟨round :: rounds, ?_, ?_, ?_⟩
      · intro round' hmem
        rcases List.mem_cons.1 hmem with rfl | hmem
        · exact hdecides
        · exact hdecide round' hmem
      · rw [List.flatMap_cons, List.filterMap_append, List.flatMap_cons, hanswers, hanswers']
      · rw [List.flatMap_cons, List.filterMap_append, List.flatMap_cons, hnotes, hnotes']
        rfl

end Source

namespace Store

/-- The journal of a store is made of the first pulls of some source, whose others are owed by chain
`i`.  No other chain has a source. -/
structure Drains (store : Store) (i : Nat) (fills : List Fill) : Prop where
  made : ∃ c made, store.chains[i]? = some c ∧ fills = made ++ c.owed ∧
    store.journal.toList = made.flatMap (·.events)
  closed : ∀ {j : Nat} {c : Chain}, j ≠ i → store.chains[j]? = some c → c.source = none

variable {store store' : Store} {i : Nat} {fills : List Fill}

/-- A read makes the pulls that come next, if any. -/
theorem Drains.read
    {α : Type} {r : Reading α} (hr : r.Steady) (h : store.Drains i fills) (cursor : Cursor) :
    Drains ((cursor.read r).run store).2 i fills := by
  rcases Cursor.asks_of_read hr cursor store with
    ⟨hchains, hjournal⟩ | ⟨j, place, c, feed, -, hchain, hasks, hchains, hjournal⟩
  · exact ⟨by rw [hchains, hjournal]; exact h.made, by rw [hchains]; exact h.closed⟩
  · have hlt := (Array.getElem?_eq_some_iff.1 hchain).1
    by_cases hji : j = i
    · subst hji
      obtain ⟨c', made, hchain', howed, hmade⟩ := h.made
      rw [hchain] at hchain'
      cases hchain'
      obtain ⟨more, howed', hmore⟩ := hasks.owed
      refine ⟨⟨feed.chain, made ++ more, ?_, ?_, ?_⟩, ?_⟩
      · rw [hchains, Array.getElem?_setIfInBounds_self_of_lt hlt]
      · rw [howed, List.append_assoc, ← howed']
      · rw [hjournal, hmore, hmade, List.flatMap_append]
      · intro k c' hk hchain'
        rw [hchains, Array.getElem?_setIfInBounds_ne (Ne.symm hk)] at hchain'
        exact h.closed hk hchain'
    · obtain rfl := hasks.eq_of_closed (h.closed hji hchain)
      have hsame : ((cursor.read r).run store).2.chains = store.chains := by
        rw [hchains, setIfInBounds_self hchain]
      exact ⟨by rw [hsame, hjournal]; exact h.made, by rw [hsame]; exact h.closed⟩

theorem Drains.reaches (h : store.Drains i fills) (hreaches : store.Reaches store') :
    store'.Drains i fills := by
  induction hreaches with
  | refl => exact h
  | byte _ _ ih => exact ih.read Reading.steady_bytes _
  | rune _ _ ih => exact ih.read Reading.steady_runes _

/-- What is said of a journal that is made of the first pulls of a source, compared to all of
them. -/
theorem Drains.drainsAs
    {source : Source} {config : Config} (h : store.Drains i (source.fills config)) {whole : Journal}
    (hwhole : whole.toList = (source.fills config).flatMap (·.events)) :
    store.journal.DrainsAs whole config.room := by
  obtain ⟨c, made, -, howed, hmade⟩ := h.made
  have hbegins : store.journal.toList <+: whole.toList := by
    rw [hwhole, howed, List.flatMap_append, hmade]
    exact List.prefix_append _ _
  refine ⟨hbegins, hbegins.filterMap _, ?_, ?_, ?_⟩
  · rw [Journal.notes_eq, Journal.notes_eq]
    exact hbegins.filterMap _
  · have hpulls : ∀ fill ∈ made, ∃ source' : Source, fill = source'.fill config 0 :=
      fun fill hmem => Source.exists_of_mem_fills (howed ▸ List.mem_append_left _ hmem)
    obtain ⟨rounds, hdecide, hanswers, hnotes⟩ := Source.exists_rounds hpulls
    refine ⟨rounds, hdecide, ?_, ?_⟩
    · rw [Journal.answers, hmade, hanswers]
    · rw [Journal.notes_eq, hmade, hnotes]
  · intro before answer after hjournal hcloses room hasked
    have hheeded := (Source.heeded_fills config source).sublist (hwhole ▸ hbegins.sublist)
    rw [hjournal, List.pairwise_append, List.pairwise_cons] at hheeded
    exact hheeded.2.1.1 _ hasked ⟨answer, rfl, hcloses⟩ room rfl

end Store

/-! ## Reading a source out -/

namespace Cursor

variable {store : Store} {i : Nat} {content : Content} {cursor : Cursor}

theorem closed_of_read
    (h : store.Sees i (some content) cursor)
    (hnone : ∀ found, ((cursor.read .bytes).run store).1 ≠ .ok (.ok found)) :
    ∃ c, ((cursor.read .bytes).run store).2.chains[i]? = some c ∧ c.source = none := by
  cases h with
  | @attached chain place position hchain hsound hmarks =>
      have hlt := (Array.getElem?_eq_some_iff.1 hchain).1
      have hclosed := @Feed.closed_of_byte ⟨chain, store.journal⟩ place _ hsound hmarks
      refine ⟨((Feed.byte place).run ⟨chain, store.journal⟩).2.chain, ?_, hclosed ?_⟩
      · simp only [read, unit, Action.run_bind, Store.run_onChain hchain, Reading.bytes]
        rcases (Feed.byte place).run ⟨chain, store.journal⟩ with ⟨fault | halt | found, feed⟩
        · exact Array.getElem?_setIfInBounds_self_of_lt hlt
        · exact Array.getElem?_setIfInBounds_self_of_lt hlt
        · exact Array.getElem?_setIfInBounds_self_of_lt hlt
      · intro found hfound
        simp only [read, unit, Action.run_bind, Store.run_onChain hchain, Reading.bytes, hfound]
          at hnone
        exact hnone _ rfl

theorem closed_of_traverse
    {β : Type} {rule : TraversalRule UInt8 β}
    (hwants : ∀ gathered cursor, rule.wants gathered cursor) (haccepts : ∀ b, rule.accepts b)
    (gathered : β) (h : store.Sees i (some content) cursor) :
    ∃ c, (traverse .bytes rule gathered cursor store).2.chains[i]? = some c ∧ c.source = none := by
  fun_induction traverse Reading.bytes rule gathered cursor store with
  | case1 gathered cursor store hwanted fault store' hread =>
      have hclosed := closed_of_read h
      rw [hread] at hclosed
      exact hclosed (by simp)
  | case2 gathered cursor store hwanted error store' hread =>
      have hclosed := closed_of_read h
      rw [hread] at hclosed
      exact hclosed (by simp)
  | case3 gathered cursor store hwanted b next store' hread hlt haccepted ih =>
      have hcomes := Reading.Account.bytes.comes_read h
      rw [hread] at hcomes
      generalize Reading.Account.bytes.reference (some content) cursor.position = outcome
        at hcomes
      cases hcomes with
      | success _ _ hsees => exact ih hsees
  | case4 gathered cursor store hwanted b next store' hread hlt hrefused =>
      exact absurd (haccepts b) hrefused
  | case5 gathered cursor store hunwanted => exact absurd (hwants gathered cursor) hunwanted

theorem closed_of_readUpTo (h : store.Sees i (some content) cursor) :
    ∃ c, ((cursor.readUpTo .bytes none).run store).2.chains[i]? = some c ∧ c.source = none :=
  closed_of_traverse (fun _ _ => rfl) (fun _ => rfl) #[] h

end Cursor

theorem Operation.store_several
    {α : Type} {r : Reading α} {registers : Registers} {source : String} {cursor : Cursor}
    (hcursor : registers.get? source = some cursor) (target : String) (limit : Option Nat)
    (report : Array α → Option Error → Position → Report) (store : Store) :
    ((several registers r source target limit report).run store).2 =
      ((cursor.readUpTo r limit).run store).2 := by
  simp only [several, Registers.cursor, hcursor, Action.run_bind, Action.run_pure]
  rcases (cursor.readUpTo r limit).run store with ⟨fault | traversal, store'⟩
  · rfl
  · rfl

theorem Session.store_step (session : Session) (operation : Operation) :
    (session.step operation).2.store =
      ((operation.perform session.grammar session.registers).run session.store).2 := by
  rw [step]
  rcases (operation.perform session.grammar session.registers).run session.store with
    ⟨fault | ⟨report, registers⟩, store⟩
  · rfl
  · rfl

/-- A session with one input, a source that is read byte by byte from its start to its end. -/
def Source.readOut (source : Source) (config : Config) : Session :=
  ((Session.start ⟨[]⟩ [("s", .streaming source config)]).run [.bytes "s" "s" none]).2

namespace Session

open Store

variable {inputs : List (String × Input)} {source : Source} {config : Config}

theorem drains_start (grammar : Grammar) (h : Input.streams inputs = [(source, config)]) :
    ∃ i, (start grammar inputs).store.Drains i (source.fills config) := by
  obtain ⟨before, ⟨name, input⟩, after, rfl, hbefore, hinput, hafter⟩ :=
    List.filterMap_eq_cons_iff.1 h
  have hafter' := List.filterMap_eq_nil_iff.1 hafter
  obtain rfl : input = .streaming source config := by
    cases input with
    | streaming source' config' =>
        cases hinput
        rfl
    | complete bytes => cases hinput
    | detached => cases hinput
  -- Every other chain comes from an input without source.
  have hclosed : ∀ {others : List (String × Input)} {j : Nat} {c : Chain},
      (∀ input ∈ others, input.2.stream? = none) →
        (others.filterMap (·.2.chain))[j]? = some c → c.source = none := by
    intro others j c hothers hchain
    obtain ⟨input, hmem, hstart⟩ := List.mem_filterMap.1 (List.mem_of_getElem? hchain)
    exact Input.source_of_chain hstart (hothers input hmem)
  have hchains :
      (start grammar (before ++ (name, .streaming source config) :: after)).store.chains =
        (before.filterMap (·.2.chain) ++
          .streaming source config :: after.filterMap (·.2.chain)).toArray := by
    rw [start_store, List.filterMap_append, List.filterMap_cons]
    rfl
  refine ⟨(before.filterMap (·.2.chain)).length, ⟨.streaming source config, [], ?_, rfl, ?_⟩, ?_⟩
  · rw [hchains, List.getElem?_toArray, List.getElem?_append_right (Nat.le_refl _), Nat.sub_self]
    rfl
  · rw [start_store]
    rfl
  · intro j c hj hchain
    rw [hchains, List.getElem?_toArray] at hchain
    rcases Nat.lt_or_gt_of_ne hj with hlt | hgt
    · rw [List.getElem?_append_left hlt] at hchain
      exact hclosed hbefore hchain
    · obtain ⟨n, rfl⟩ := Nat.exists_eq_add_of_lt hgt
      rw [List.getElem?_append_right (by omega), Nat.add_assoc, Nat.add_sub_cancel_left,
        List.getElem?_cons_succ] at hchain
      exact hclosed hafter' hchain

/-- Reading a source out makes all its pulls, and leaves no source. -/
theorem journal_readOut (source : Source) (config : Config) :
    (source.readOut config).store.journal.toList = (source.fills config).flatMap (·.events) ∧
      ∃ c, (source.readOut config).store.chains[0]? = some c ∧ c.source = none := by
  let first := start ⟨[]⟩ [("s", .streaming source config)]
  let entry : Cursor := ⟨some ⟨0, ⟨0, 0⟩⟩, .start⟩
  have hsees : first.store.Sees 0 (some (source.content config.room)) entry :=
    Input.sees_enter (.streaming source config) .empty
  have hget : first.registers.get? "s" = some entry := rfl
  have hstore :
      (source.readOut config).store = ((entry.readUpTo .bytes none).run first.store).2 :=
    (store_step first (.bytes "s" "s" none)).trans
      (Operation.store_several hget "s" none .bytesRead first.store)
  have hstart : first.store.Drains 0 (source.fills config) := by
    refine ⟨⟨.streaming source config, [], rfl, rfl, rfl⟩, ?_⟩
    intro j c hj hchain
    have hlt : j < 1 := (Array.getElem?_eq_some_iff.1 hchain).1
    omega
  have hreaches : first.store.Reaches (source.readOut config).store :=
    (run_reaches (fresh_start _ _).known _).1
  obtain ⟨c, made, hchain, howed, hmade⟩ := (hstart.reaches hreaches).made
  obtain ⟨c', hchain', hsource⟩ := Cursor.closed_of_readUpTo hsees
  rw [← hstore, hchain] at hchain'
  cases hchain'
  refine ⟨?_, c, hchain, hsource⟩
  rw [hmade, howed, Chain.owed, hsource]
  simp

/-- Operations decide only how far a source is drained.  Whatever is read in a session with one
source, by operations in any order and also after the source has overclaimed, the journal is the
beginning of the one that reading the source byte by byte to its end leaves. -/
theorem journal_drainsAs_readOut
    (grammar : Grammar) (h : Input.streams inputs = [(source, config)]) :
    let whole := (source.readOut config).store
    (∃ c, whole.chains[0]? = some c ∧ c.source = none) ∧
      (∀ store, (start grammar inputs).store.Reaches store →
        store.journal.DrainsAs whole.journal config.room) ∧
      ∀ operations : List Operation,
        ((start grammar inputs).run operations).2.store.journal.DrainsAs whole.journal
          config.room := by
  obtain ⟨hwhole, hclosed⟩ := journal_readOut source config
  obtain ⟨i, hdrains⟩ := drains_start grammar h
  refine ⟨hclosed, ?_, ?_⟩
  · intro store hreaches
    exact (hdrains.reaches hreaches).drainsAs hwhole
  · intro operations
    obtain ⟨hreaches, -⟩ := run_reaches (fresh_start grammar inputs).known operations
    exact (hdrains.reaches hreaches).drainsAs hwhole

/-- A source is asked in vain, gives a byte, and overclaims.  One byte is read from it. -/
theorem journal_drainsAs_readOut_of_byte :
    let source : Source := ⟨.supplier, [.deliver [] false, .deliver [0x61] false, .overclaim 1]⟩
    let inputs : List (String × Input) := [("t", .complete []), ("s", .streaming source default)]
    let session := ((start ⟨[]⟩ inputs).run [.byte "t" "t", .byte "s" "u", .byte "s" "t"]).2
    let journal := session.store.journal
    let whole := (source.readOut default).store.journal
    Input.streams inputs = [(source, default)] ∧
      journal.answers = [.filled [] false, .filled [0x61] false] ∧
        journal.notes = [.pulled 0 1024, .retrying 1, .pulled 1 1024] ∧
          whole.answers = [.filled [] false, .filled [0x61] false, .overclaimed 1025] ∧
            journal.DrainsAs whole 1024 := by
  intro source inputs
  have honly : Input.streams inputs = [(source, default)] := rfl
  obtain ⟨-, -, hrun⟩ := journal_drainsAs_readOut ⟨[]⟩ honly
  exact ⟨honly, by decide +kernel, by decide +kernel, by decide +kernel, hrun _⟩

end Session
end StreamParse
