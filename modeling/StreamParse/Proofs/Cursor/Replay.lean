import StreamParse.Proofs.Chain.Growth
import StreamParse.Proofs.Reach

/-!
# Runs made again

A run that gave a result gives the same result when it is made again at any later time.  It then
asks no source for anything and writes nothing to the journal; only the record of reads goes on.

Stores grow as their chains do.  A run whose reads are replayed one by one is replayed as a whole,
since everything else that it does is decided by what the reads gave.
-/

namespace StreamParse

namespace Store

/-- A later form of a store: every chain has grown. -/
def Grown (store store' : Store) : Prop :=
  ∀ ⦃i : Nat⦄ ⦃chain : Chain⦄, store.chains[i]? = some chain →
    ∃ chain', store'.chains[i]? = some chain' ∧ chain.Grown chain'

/-- Whenever the run gave a value, it gives the same value in every later store, and changes nothing
there but the record of reads. -/
def Replays {ρ : Type} (x : Run ρ) : Prop :=
  ∀ ⦃store : Store⦄ ⦃value : ρ⦄ ⦃store' : Store⦄, x.run store = (.ok value, store') →
    store.Grown store' ∧
      ∀ ⦃later : Store⦄, store'.Grown later →
        ∃ reads, x.run later = (.ok value, { later with reads })

variable {store store' store'' : Store}

theorem Grown.refl (store : Store) : store.Grown store :=
  fun _ chain hchain => ⟨chain, hchain, Chain.Grown.refl chain⟩

theorem Grown.trans (h : store.Grown store') (h' : store'.Grown store'') :
    store.Grown store'' := by
  intro i chain hchain
  obtain ⟨chain', hchain', hgrown⟩ := h hchain
  obtain ⟨chain'', hchain'', hgrown'⟩ := h' hchain'
  exact ⟨chain'', hchain'', hgrown.trans hgrown'⟩

theorem Grown.of_set
    {i : Nat} {chain chain' : Chain} (hchain : store.chains[i]? = some chain)
    (hgrown : chain.Grown chain')
    (hchains : store'.chains = store.chains.setIfInBounds i chain') : store.Grown store' := by
  intro j other hother
  have hlt := (Array.getElem?_eq_some_iff.1 hchain).1
  rw [hchains]
  by_cases hij : i = j
  · subst hij
    rw [hchain] at hother
    cases hother
    exact ⟨chain', Array.getElem?_setIfInBounds_self_of_lt hlt, hgrown⟩
  · exact ⟨other, by rw [Array.getElem?_setIfInBounds_ne hij, hother], Chain.Grown.refl other⟩

theorem setIfInBounds_self
    {chains : Array Chain} {i : Nat} {chain : Chain} (h : chains[i]? = some chain) :
    chains.setIfInBounds i chain = chains := by
  apply Array.ext_getElem?
  intro j
  rw [Array.getElem?_setIfInBounds]
  split
  · next hij =>
    subst hij
    rw [if_pos (Array.getElem?_eq_some_iff.1 h).1, h]
  · rfl

/-! ## Putting runs together -/

namespace Replays

variable {ρ σ : Type}

theorem pure (value : ρ) : Replays (pure value) := by
  intro store value' store' h
  cases h
  exact ⟨Grown.refl store, fun later _ => ⟨later.reads, rfl⟩⟩

theorem fault (fault : Fault) : Replays (.fault fault : Run ρ) := by
  intro store value store' h
  cases h

theorem bind {x : Run ρ} {f : ρ → Run σ} (hx : Replays x) (hf : ∀ value, Replays (f value)) :
    Replays (x >>= f) := by
  intro store value store' h
  obtain ⟨middle, store₁, hrun, h⟩ := Action.exists_of_run_bind h
  obtain ⟨hgrown, hagain⟩ := hx hrun
  obtain ⟨hgrown', hagain'⟩ := hf middle h
  refine ⟨hgrown.trans hgrown', ?_⟩
  intro later hlater
  obtain ⟨reads, hreplayed⟩ := hagain (hgrown'.trans hlater)
  have hsame : store'.Grown { later with reads } := hlater
  obtain ⟨reads', hreplayed'⟩ := hagain' hsame
  refine ⟨reads', ?_⟩
  rw [Action.run_bind, hreplayed]
  exact hreplayed'

end Replays

theorem run_onChain
    {α : Type} {i : Nat} {chain : Chain} (h : store.chains[i]? = some chain)
    (x : Action Feed α) :
    (onChain i x).run store =
      ((x.run ⟨chain, store.journal⟩).1,
        { store with
          chains := store.chains.setIfInBounds i (x.run ⟨chain, store.journal⟩).2.chain
          journal := (x.run ⟨chain, store.journal⟩).2.journal }) := by
  simp only [onChain, h]

theorem replays_onChain
    {α : Type} {x : Action Feed α} (hx : Feed.Replays x)
    (hasks : ∀ feed : Feed, feed.Asks (x.run feed).2) (i : Nat) : Replays (onChain i x) := by
  intro store value store' h
  cases hchain : store.chains[i]? with
  | none => simp [onChain, hchain] at h
  | some chain =>
      rw [run_onChain hchain] at h
      have hlt := (Array.getElem?_eq_some_iff.1 hchain).1
      have hgrown := (hasks ⟨chain, store.journal⟩).grown
      rcases hrun : x.run ⟨chain, store.journal⟩ with ⟨outcome, feed⟩
      rw [hrun] at h hgrown
      cases h
      refine ⟨.of_set hchain hgrown rfl, ?_⟩
      intro later hlater
      obtain ⟨chain', hchain', hgrown'⟩ := hlater (Array.getElem?_setIfInBounds_self_of_lt hlt)
      have hagain : x.run ⟨chain', later.journal⟩ = (.ok value, ⟨chain', later.journal⟩) :=
        hx hrun hgrown'
      refine ⟨later.reads, ?_⟩
      rw [run_onChain hchain', hagain]
      simp only [setIfInBounds_self hchain']

end Store

/-! ## Reads -/

/-- A reading that asks for chunks only, and asks for none when it is made again. -/
structure Reading.Steady {α : Type} (r : Reading α) : Prop where
  asks : ∀ (place : Place) (feed : Feed), feed.Asks ((r.read place).run feed).2
  replays : ∀ place, Feed.Replays (r.read place)

theorem Reading.steady_bytes : bytes.Steady := ⟨Feed.asks_byte, Feed.replays_byte⟩

theorem Reading.steady_runes : runes.Steady := ⟨Feed.asks_rune, Feed.replays_rune⟩

namespace Cursor

open Store

variable {α β : Type} {r : Reading α}

theorem replays_unit (hr : r.Steady) (cursor : Cursor) : Replays (cursor.unit r) := by
  rw [unit]
  split
  · exact .fault _
  · next anchor _ =>
    refine (replays_onChain (hr.replays anchor.place) (hr.asks anchor.place) anchor.chain).bind ?_
    rintro (halt | ⟨unit, place⟩)
    · exact .pure _
    · exact .pure _

theorem run_read (r : Reading α) (cursor : Cursor) (store : Store) :
    (cursor.read r).run store =
      (((cursor.unit r).run store).1, ((cursor.unit r).run store).2.record
        ⟨r.grain, cursor, ((cursor.unit r).run store).1.map
          (·.map fun (unit, next) => (r.code unit, next))⟩) := rfl

/-- What a read does to the chains and to the journal is what it does to the chain of its cursor. -/
theorem store_read
    (r : Reading α) {cursor : Cursor} {anchor : Anchor} (hanchor : cursor.anchor = some anchor)
    {store : Store} {chain : Chain} (hchain : store.chains[anchor.chain]? = some chain) :
    ((cursor.read r).run store).2.chains = store.chains.setIfInBounds anchor.chain
        ((r.read anchor.place).run ⟨chain, store.journal⟩).2.chain ∧
      ((cursor.read r).run store).2.journal =
        ((r.read anchor.place).run ⟨chain, store.journal⟩).2.journal := by
  -- What is made of the unit afterwards leaves the store alone.
  have hunit : ((cursor.unit r).run store).2 =
      ((onChain anchor.chain (r.read anchor.place)).run store).2 := by
    simp only [unit, hanchor, Action.run_bind]
    rcases (onChain anchor.chain (r.read anchor.place)).run store with
      ⟨fault | halt | ⟨unit, place⟩, store'⟩
    · rfl
    · rfl
    · rfl
  rw [run_read]
  simp only [record, hunit, run_onChain hchain]
  exact ⟨trivial, trivial⟩

/-- All that a read can do to the chains and to the journal: nothing, or what asking the chain of
its cursor for chunks does. -/
theorem asks_of_read (hr : r.Steady) (cursor : Cursor) (store : Store) :
    (((cursor.read r).run store).2.chains = store.chains ∧
        ((cursor.read r).run store).2.journal = store.journal) ∨
      ∃ i place chain feed, cursor.anchor = some ⟨i, place⟩ ∧ store.chains[i]? = some chain ∧
        Feed.Asks ⟨chain, store.journal⟩ feed ∧
        ((cursor.read r).run store).2.chains = store.chains.setIfInBounds i feed.chain ∧
        ((cursor.read r).run store).2.journal = feed.journal := by
  obtain ⟨anchor, position⟩ := cursor
  cases anchor with
  | none => exact Or.inl ⟨rfl, rfl⟩
  | some anchor =>
      cases hchain : store.chains[anchor.chain]? with
      | none =>
          refine Or.inl ?_
          simp only [run_read, unit, Action.run_bind, onChain, hchain, record]
          exact ⟨trivial, trivial⟩
      | some chain =>
          exact Or.inr ⟨anchor.chain, anchor.place, chain,
            ((r.read anchor.place).run ⟨chain, store.journal⟩).2, rfl, hchain,
            hr.asks anchor.place _, store_read r rfl hchain⟩

theorem grown_read (hr : r.Steady) (cursor : Cursor) (store : Store) :
    store.Grown ((cursor.read r).run store).2 := by
  rcases asks_of_read hr cursor store with ⟨hchains, -⟩ | ⟨i, place, chain, feed, -, hchain, h⟩
  · intro i chain hchain
    exact ⟨chain, by rw [hchains, hchain], Chain.Grown.refl chain⟩
  · exact .of_set hchain h.1.grown h.2.1

theorem replays_read (hr : r.Steady) (cursor : Cursor) : Replays (cursor.read r) := by
  intro store value store' h
  rcases hunit : (cursor.unit r).run store with ⟨outcome, store₁⟩
  rw [run_read, hunit] at h
  cases h
  obtain ⟨hgrown, hagain⟩ := replays_unit hr cursor hunit
  refine ⟨hgrown, ?_⟩
  intro later hlater
  obtain ⟨reads, hreplayed⟩ := hagain hlater
  exact ⟨_, by rw [run_read, hreplayed]; rfl⟩

/-- What a traversal has read once it reads again without asking for anything. -/
theorem replays_traverse
    (hr : r.Steady) (rule : TraversalRule α β) (gathered : β) (cursor : Cursor) :
    Replays ⟨traverse r rule gathered cursor⟩ := by
  intro store value store' h
  dsimp only at h
  fun_induction traverse r rule gathered cursor store with
  | case1 => cases h
  | case2 gathered cursor store hwants error store₁ hread =>
      cases h
      obtain ⟨hgrown, hagain⟩ := replays_read hr cursor hread
      refine ⟨hgrown, ?_⟩
      intro later hlater
      obtain ⟨reads, hreplayed⟩ := hagain hlater
      refine ⟨reads, ?_⟩
      dsimp only
      rw [traverse_eq, if_pos hwants, hreplayed]
  | case3 gathered cursor store hwants unit next store₁ hread hlt haccepts ih =>
      obtain ⟨hgrown, hagain⟩ := replays_read hr cursor hread
      obtain ⟨hgrown', hagain'⟩ := ih h
      refine ⟨hgrown.trans hgrown', ?_⟩
      intro later hlater
      obtain ⟨reads, hreplayed⟩ := hagain (hgrown'.trans hlater)
      have hsame : store'.Grown { later with reads } := hlater
      obtain ⟨reads', hreplayed'⟩ := hagain' hsame
      refine ⟨reads', ?_⟩
      dsimp only at hreplayed' ⊢
      rw [traverse_eq, if_pos hwants, hreplayed]
      simp only [if_pos haccepts]
      exact hreplayed'
  | case4 gathered cursor store hwants unit next store₁ hread hlt haccepts =>
      cases h
      obtain ⟨hgrown, hagain⟩ := replays_read hr cursor hread
      refine ⟨hgrown, ?_⟩
      intro later hlater
      obtain ⟨reads, hreplayed⟩ := hagain hlater
      refine ⟨reads, ?_⟩
      dsimp only
      rw [traverse_eq, if_pos hwants, hreplayed]
      simp only [if_neg haccepts]
  | case5 gathered cursor store hwants =>
      cases h
      refine ⟨Grown.refl _, ?_⟩
      intro later _
      refine ⟨later.reads, ?_⟩
      dsimp only
      rw [traverse_eq, if_neg hwants]

end Cursor

/-- Whatever is read, the chains grow. -/
theorem Store.Reaches.grown {store store' : Store} (h : store.Reaches store') :
    store.Grown store' := by
  induction h with
  | refl => exact Grown.refl store
  | byte _ _ ih => exact ih.trans (Cursor.grown_read Reading.steady_bytes _ _)
  | rune _ _ ih => exact ih.trans (Cursor.grown_read Reading.steady_runes _ _)

/-! ## Spans -/

namespace Chain

variable {c c' : Chain}

theorem Grown.slice_eq
    (h : c.Grown c') {k start stop : Nat} {bytes : Array UInt8}
    (hslice : c.slice k start stop = .ok bytes) : c'.slice k start stop = .ok bytes := by
  rw [slice] at hslice
  cases hchunk : c.chunks[k]? with
  | none => simp [hchunk] at hslice
  | some chunk =>
      rw [hchunk] at hslice
      rw [slice, h.getElem? hchunk]
      exact hslice

theorem Grown.sliceFrom_eq
    (h : c.Grown c') {k start : Nat} {bytes : Array UInt8}
    (hslice : c.sliceFrom k start = .ok bytes) : c'.sliceFrom k start = .ok bytes := by
  rw [sliceFrom] at hslice
  cases hchunk : c.chunks[k]? with
  | none => simp [hchunk] at hslice
  | some chunk =>
      rw [hchunk] at hslice
      rw [sliceFrom, h.getElem? hchunk]
      exact h.slice_eq hslice

theorem Grown.between_eq
    (h : c.Grown c') {last : Nat} (hlast : last < c.chunks.size) (first : Nat) :
    c'.between first last = c.between first last := by
  obtain ⟨more, hmore⟩ := h.chunks
  have hextract : c'.chunks.extract first last = c.chunks.extract first last := by
    apply Array.toList_inj.1
    rw [Array.toList_extract, Array.toList_extract, ← hmore, List.extract_eq_take_drop,
      List.extract_eq_take_drop]
    by_cases hle : first ≤ last
    · have hlength : c.chunks.toList.length = c.chunks.size := rfl
      rw [List.drop_append_of_le_length (by omega),
        List.take_append_of_le_length (by rw [List.length_drop]; omega)]
    · rw [Nat.sub_eq_zero_of_le (by omega), List.take_zero, List.take_zero]
  rw [between, between, hextract]

theorem Grown.span_eq
    (h : c.Grown c') {start stop : Place} {bytes : Array UInt8}
    (hspan : c.span start stop = .ok bytes) : c'.span start stop = .ok bytes := by
  simp only [span] at hspan ⊢
  split at hspan
  · next hwithin =>
    rw [if_pos hwithin]
    exact h.slice_eq hspan
  · next hacross =>
    rw [if_neg hacross]
    split at hspan
    · next hlt =>
      rw [if_pos hlt]
      cases hhead : c.sliceFrom start.chunk start.index with
      | error fault => simp [hhead, Bind.bind, Except.bind] at hspan
      | ok head =>
          cases htail : c.slice stop.chunk 0 stop.index with
          | error fault => simp [hhead, htail, Bind.bind, Except.bind] at hspan
          | ok tail =>
              have hstop : stop.chunk < c.chunks.size := by
                by_contra hnone
                rw [slice, Array.getElem?_eq_none_iff.2 (by omega)] at htail
                cases htail
              rw [hhead, htail] at hspan
              rw [h.sliceFrom_eq hhead, h.slice_eq htail, h.between_eq hstop]
              exact hspan
    · cases hspan

end Chain

namespace Cursor

open Store

theorem replays_bytesUntil (start stop : Cursor) : Replays (start.bytesUntil stop) := by
  rw [bytesUntil]
  split
  · exact .fault _
  · split
    · exact .fault _
    · exact .fault _
    · next first last _ _ =>
      split
      · intro store value store' h
        dsimp only at h
        cases hchain : store.chains[first.chain]? with
        | none => simp [hchain] at h
        | some chain =>
            simp only [hchain] at h
            cases hspan : chain.span first.place last.place with
            | error fault => simp [hspan] at h
            | ok bytes =>
                simp only [hspan] at h
                split at h
                · next hsize =>
                  cases h
                  refine ⟨Grown.refl store, ?_⟩
                  intro later hlater
                  obtain ⟨chain', hchain', hgrown⟩ := hlater hchain
                  refine ⟨later.reads, ?_⟩
                  simp only [hchain', hgrown.span_eq hspan]
                  rw [if_pos hsize]
                · cases h
      · exact .fault _

end Cursor
end StreamParse
