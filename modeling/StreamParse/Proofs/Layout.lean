import StreamParse.Proofs.Chain.Nodes
import StreamParse.Proofs.Cursor.Replay
import StreamParse.Proofs.Onward

/-!
# The layout of all inputs

After any reads, and so after any operations of a session, every input is laid out in linked chunks
as it should be, and every cursor stands where its position says.  What an operation does to this is
to append chunks to the inputs that it reads, with requests to their sources for just the room of
their configuration.  Nothing that was there is changed, and the other inputs are left alone.
-/

namespace StreamParse

/-! ## Inputs and their chains -/

namespace Input

/-- The chain that an input begins as, if there is any input. -/
def chain : Input → Option Chain
  | .complete bytes => some (.complete bytes)
  | .streaming source config => some (.streaming source config)
  | .detached => none

/-- The inputs that have a chain, in the order of their chains. -/
def attached (inputs : List (String × Input)) : List Input :=
  (inputs.map (·.2)).filter (·.chain.isSome)

theorem map_chain_attached (inputs : List (String × Input)) :
    (attached inputs).map chain = (inputs.filterMap (·.2.chain)).map some := by
  induction inputs with
  | nil => rfl
  | cons input inputs ih =>
      rw [attached] at ih ⊢
      cases hchain : input.2.chain with
      | none => simpa [hchain] using ih
      | some start => simpa [hchain] using ih

theorem laid_of_chain {input : Input} {start : Chain} (h : input.chain = some start) :
    start.Laid start := by
  cases input with
  | complete bytes =>
      cases h
      exact .of_singleton (Chain.sound_singleton rfl none default) rfl
  | streaming source config =>
      cases h
      exact .of_singleton (Chain.sound_singleton rfl (some source) config) rfl
  | detached => cases h

theorem content_of_chain {input : Input} {start : Chain} (h : input.chain = some start) :
    ∃ content, input.content = some content ∧ start.content.bytes = content.bytes := by
  cases input with
  | complete bytes =>
      cases h
      exact ⟨_, rfl, congrArg Content.bytes (Chain.content_complete bytes)⟩
  | streaming source config =>
      cases h
      exact ⟨_, rfl, congrArg Content.bytes (Chain.content_streaming source config)⟩
  | detached => cases h

/-- How the chunks of an input are laid out in memory.  They came about by following nodes from
the first one on, are linked one after the other, and only the last one may hold the source.  No
chunk is empty but the first one of a stream and the last one without source; only the latter tells
a failure.  Chunks of a stream fit into the room of a request.  Together they are the beginning of
the content, and all of it once there is no source. -/
structure LaidOut (input : Input) (c : Chain) : Prop where
  links : ∃ start, input.chain = some start ∧ Node.Links c.config start.nodes c.nodes
  next : ∀ {k : Nat} {node : Node}, c.nodes[k]? = some node →
    node.next = if k + 1 = c.nodes.size then none else some (k + 1)
  source_last : ∀ {k : Nat} {node : Node}, c.nodes[k]? = some node → node.source ≠ none →
    k + 1 = c.nodes.size
  empty : ∀ {k : Nat} {node : Node}, c.nodes[k]? = some node → node.chunk.bytes.size = 0 →
    (k = 0 ∧ ∃ source config, input = .streaming source config) ∨
      k + 1 = c.nodes.size ∧ node.source = none
  failure : ∀ {k : Nat} {node : Node}, c.nodes[k]? = some node → node.chunk.failure ≠ none →
    k + 1 = c.nodes.size ∧ node.source = none ∧ node.chunk.bytes.size = 0
  stream : ∀ {source : Source} {config : Config}, input = .streaming source config →
    (∃ node, c.nodes[0]? = some node ∧ node.chunk = .filled []) ∧
      ∀ {k : Nat} {node : Node}, c.nodes[k]? = some node →
        node.chunk.bytes.size ≤ max config.chunkSize 8
  isPrefix : ∀ {content : Content}, input.content = some content →
    c.nodes.toList.flatMap (·.chunk.bytes.toList) <+: content.bytes
  whole : ∀ {content : Content}, input.content = some content →
    (∀ node, c.nodes.back? = some node → node.source = none) →
      c.nodes.toList.flatMap (·.chunk.bytes.toList) = content.bytes

end Input

namespace Chain

theorem map_chunk_nodes (c : Chain) : c.nodes.toList.map (·.chunk) = c.chunks.toList := by
  apply List.ext_getElem?
  intro k
  rw [List.getElem?_map, Array.getElem?_toList, Array.getElem?_toList]
  cases hchunk : c.chunks[k]? with
  | none => rw [getElem?_nodes, hchunk, Option.map_none, Option.map_none]
  | some chunk =>
      obtain ⟨node, hnode, rfl⟩ := exists_getElem?_nodes hchunk
      rw [hnode, Option.map_some]

theorem flatMap_nodes (c : Chain) : c.nodes.toList.flatMap (·.chunk.bytes.toList) = c.bytes := by
  rw [bytes, ← map_chunk_nodes, List.flatMap_map]

theorem length_take_nodes (c : Chain) (k : Nat) :
    ((c.nodes.toList.take k).flatMap (·.chunk.bytes.toList)).length = c.offset k := by
  rw [offset, ← map_chunk_nodes, ← List.map_take, List.flatMap_map]

theorem last_of_source_ne_none
    {c : Chain} {k : Nat} {node : Node} (h : c.nodes[k]? = some node)
    (hsource : node.source ≠ none) : k + 1 = c.nodes.size := by
  obtain ⟨-, hcell, -⟩ := of_getElem?_nodes h
  rw [size_nodes]
  by_contra hlast
  rw [hcell, if_neg hlast] at hsource
  exact hsource rfl

theorem Sound.source_eq_none
    {c : Chain} (h : c.Sound) (hback : ∀ node, c.nodes.back? = some node → node.source = none) :
    c.source = none := by
  have hlast : c.chunks.size - 1 + 1 = c.chunks.size := Nat.sub_add_cancel h.nonempty
  apply hback ⟨c.chunks[c.chunks.size - 1], c.source, none⟩
  rw [Array.back?_eq_getElem?, size_nodes, getElem?_nodes_of_last hlast]

theorem Sound.empty_node
    {c : Chain} (h : c.Sound) {k : Nat} {node : Node} (hnode : c.nodes[k]? = some node)
    (hempty : node.chunk.bytes.size = 0) :
    k = 0 ∨ k + 1 = c.nodes.size ∧ node.source = none := by
  obtain ⟨hchunk, hcell, -⟩ := of_getElem?_nodes hnode
  rcases h.empty_last hchunk hempty with hfirst | ⟨hlast, hnone⟩
  · exact Or.inl hfirst
  · rw [size_nodes, hcell, if_pos hlast]
    exact Or.inr ⟨hlast, hnone⟩

theorem Sound.failure_node
    {c : Chain} (h : c.Sound) {k : Nat} {node : Node} (hnode : c.nodes[k]? = some node)
    (hfailure : node.chunk.failure ≠ none) :
    k + 1 = c.nodes.size ∧ node.source = none ∧ node.chunk.bytes.size = 0 := by
  obtain ⟨hchunk, hcell, -⟩ := of_getElem?_nodes hnode
  obtain ⟨hlast, hnone, hempty⟩ := h.failure_last hchunk hfailure
  rw [size_nodes, hcell, if_pos hlast]
  exact ⟨hlast, hnone, hempty⟩

/-- The first chunk of a stream is empty, and the others are pulled ones. -/
theorem Laid.size_le_node
    {source : Source} {config : Config} {c : Chain} (h : (streaming source config).Laid c)
    {k : Nat} {node : Node} (hnode : c.nodes[k]? = some node) :
    node.chunk.bytes.size ≤ max config.chunkSize 8 := by
  obtain ⟨hchunk, -, -⟩ := of_getElem?_nodes hnode
  rcases Nat.eq_zero_or_pos k with rfl | hpos
  · have hfirst : Chunk.filled [] = node.chunk := Option.some.inj (h.first.symm.trans hchunk)
    rw [← hfirst]
    exact Nat.zero_le _
  · exact h.size_le hchunk hpos

/-- A chain that an input came to is laid out. -/
theorem Pulls.laidOut
    {input : Input} {start c : Chain} (h : input.chain = some start) (hpulls : start.Pulls c) :
    input.LaidOut c := by
  have hlaid := (Input.laid_of_chain h).pulls hpulls
  have hgrown := hpulls.grown
  obtain ⟨content₀, hcontent₀, hsame⟩ := Input.content_of_chain h
  constructor
  · exact ⟨start, h, hgrown.config ▸ Node.links_iff.2 ⟨c, hpulls, rfl⟩⟩
  · intro k node hnode
    obtain ⟨-, -, hnext⟩ := of_getElem?_nodes hnode
    rw [size_nodes, hnext]
  · intro k node hnode hsource
    exact last_of_source_ne_none hnode hsource
  · intro k node hnode hempty
    rcases hlaid.sound.empty_node hnode hempty with rfl | hend
    · cases input with
      | streaming source config => exact Or.inl ⟨rfl, source, config, rfl⟩
      | complete bytes =>
          -- The chain of an input that is all there stays as it is.
          cases h
          obtain rfl := hgrown.closed rfl
          cases hnode
          exact Or.inr ⟨rfl, rfl⟩
      | detached => cases h
    · exact Or.inr hend
  · intro k node hnode hfailure
    exact hlaid.sound.failure_node hnode hfailure
  · rintro source config rfl
    cases h
    exact ⟨exists_getElem?_nodes hlaid.first, fun hnode => hlaid.size_le_node hnode⟩
  · intro content hcontent
    rw [hcontent] at hcontent₀
    cases hcontent₀
    rw [flatMap_nodes, ← hsame]
    exact hlaid.isPrefix
  · intro content hcontent hback
    rw [hcontent] at hcontent₀
    cases hcontent₀
    rw [flatMap_nodes, ← hsame]
    exact hlaid.bytes_eq (hlaid.sound.source_eq_none hback)

end Chain

/-! ## What reads do to a store -/

namespace Store

/-- What reads do: each of them asks the chain of its cursor for chunks.  The source of such a
chain is asked for its own room only, and all other chains are left as they are. -/
structure Widens (attempts : List Attempt) (store store' : Store) : Prop where
  size : store'.chains.size = store.chains.size
  reads : store'.reads.toList = store.reads.toList ++ attempts
  chains : ∀ {i : Nat} {c : Chain}, store.chains[i]? = some c →
    ∃ c', store'.chains[i]? = some c' ∧ c.Pulls c' ∧
      (c' = c ∨ ∃ attempt ∈ attempts, attempt.cursor.On i)
  requests : ∃ events, store'.journal.toList = store.journal.toList ++ events ∧
    ∀ room, .asked room ∈ events → ∃ i c, store.chains[i]? = some c ∧ c.source ≠ none ∧
      room = c.config.room ∧ ∃ attempt ∈ attempts, attempt.cursor.On i

variable {store store' store'' : Store} {attempts attempts' : List Attempt}

theorem Widens.refl (store : Store) : Widens [] store store where
  size := rfl
  reads := (List.append_nil _).symm
  chains hchain := ⟨_, hchain, .refl, Or.inl rfl⟩
  requests := ⟨[], (List.append_nil _).symm, by simp⟩

theorem Widens.trans (h : Widens attempts store store') (h' : Widens attempts' store' store'') :
    Widens (attempts ++ attempts') store store'' := by
  have hbefore : ∀ {i : Nat}, (∃ attempt ∈ attempts, attempt.cursor.On i) →
      ∃ attempt ∈ attempts ++ attempts', attempt.cursor.On i := by
    rintro i ⟨attempt, hmem, hon⟩
    exact ⟨attempt, List.mem_append_left _ hmem, hon⟩
  have hafter : ∀ {i : Nat}, (∃ attempt ∈ attempts', attempt.cursor.On i) →
      ∃ attempt ∈ attempts ++ attempts', attempt.cursor.On i := by
    rintro i ⟨attempt, hmem, hon⟩
    exact ⟨attempt, List.mem_append_right _ hmem, hon⟩
  constructor
  · rw [h'.size, h.size]
  · rw [h'.reads, h.reads, List.append_assoc]
  · intro i c hchain
    obtain ⟨c', hchain', hpulls, hsame⟩ := h.chains hchain
    obtain ⟨c'', hchain'', hpulls', hsame'⟩ := h'.chains hchain'
    refine ⟨c'', hchain'', hpulls.trans hpulls', ?_⟩
    rcases hsame' with rfl | hread
    · exact hsame.imp_right hbefore
    · exact Or.inr (hafter hread)
  · obtain ⟨events, hjournal, hrooms⟩ := h.requests
    obtain ⟨events', hjournal', hrooms'⟩ := h'.requests
    refine ⟨events ++ events', by rw [hjournal', hjournal, List.append_assoc], ?_⟩
    intro room hmem
    rcases List.mem_append.1 hmem with hmem | hmem
    · obtain ⟨i, c, hchain, hsource, hroom, hread⟩ := hrooms room hmem
      exact ⟨i, c, hchain, hsource, hroom, hbefore hread⟩
    · obtain ⟨i, c', hchain', hsource, hroom, hread⟩ := hrooms' room hmem
      -- The chain was there before, with the same configuration and with a source.
      have hlt : i < store.chains.size := h.size ▸ (Array.getElem?_eq_some_iff.1 hchain').1
      obtain ⟨c₁, hchain₁, hpulls, -⟩ := h.chains (Array.getElem?_eq_getElem hlt)
      rw [hchain'] at hchain₁
      cases hchain₁
      refine ⟨i, _, Array.getElem?_eq_getElem hlt, ?_, ?_, hafter hread⟩
      · intro hclosed
        rw [hpulls.grown.closed hclosed] at hsource
        exact hsource hclosed
      · rw [hroom, hpulls.grown.config]

theorem widens_read
    {α : Type} {r : Reading α} (hr : r.Steady) (cursor : Cursor) (store : Store) :
    ∃ attempt, attempt.cursor = cursor ∧ Widens [attempt] store ((cursor.read r).run store).2 := by
  obtain ⟨attempt, hcursor, hreads⟩ : ∃ attempt : Attempt, attempt.cursor = cursor ∧
      ((cursor.read r).run store).2.reads = store.reads.push attempt := by
    refine ⟨_, ?_, reads_read r cursor store⟩
    rfl
  refine ⟨attempt, hcursor, size_chains_read r cursor store, ?_, ?_, ?_⟩
  · rw [hreads, Array.toList_push]
  · intro j c hchain
    rcases Cursor.asks_of_read hr cursor store with
      ⟨hchains, -⟩ | ⟨i, place, c₁, feed, hanchor, hchain₁, hasks, hchains, -⟩
    · exact ⟨c, by rw [hchains, hchain], .refl, Or.inl rfl⟩
    · rw [hchains]
      by_cases hij : i = j
      · subst hij
        rw [hchain] at hchain₁
        cases hchain₁
        have hlt := (Array.getElem?_eq_some_iff.1 hchain).1
        exact ⟨_, Array.getElem?_setIfInBounds_self_of_lt hlt, hasks.pulls,
          Or.inr ⟨attempt, List.mem_singleton.2 rfl, place, hcursor ▸ hanchor⟩⟩
      · exact ⟨c, by rw [Array.getElem?_setIfInBounds_ne hij, hchain], .refl, Or.inl rfl⟩
  · rcases Cursor.asks_of_read hr cursor store with
      ⟨-, hjournal⟩ | ⟨i, place, c, feed, hanchor, hchain, hasks, -, hjournal⟩
    · exact ⟨[], by rw [hjournal, List.append_nil], by simp⟩
    · obtain ⟨events, hevents, hrooms⟩ := hasks.requests
      refine ⟨events, by rw [hjournal, hevents], ?_⟩
      intro room hmem
      obtain ⟨hroom, hsource⟩ := hrooms room hmem
      exact ⟨i, c, hchain, hsource, hroom, attempt, List.mem_singleton.2 rfl, place,
        hcursor ▸ hanchor⟩

theorem Reaches.widens (h : store.Reaches store') : ∃ attempts, Widens attempts store store' := by
  induction h with
  | refl => exact ⟨[], .refl store⟩
  | @byte store' cursor _ _ ih =>
      obtain ⟨attempts, hwidens⟩ := ih
      obtain ⟨attempt, -, hread⟩ := widens_read Reading.steady_bytes cursor store'
      exact ⟨_, hwidens.trans hread⟩
  | @rune store' cursor _ _ ih =>
      obtain ⟨attempts, hwidens⟩ := ih
      obtain ⟨attempt, -, hread⟩ := widens_read Reading.steady_runes cursor store'
      exact ⟨_, hwidens.trans hread⟩

end Store

namespace Store

/-- The inputs of a store, each laid out in its own chain. -/
structure LaidOut (inputs : List (String × Input)) (store : Store) : Prop where
  size : store.chains.size = (Input.attached inputs).length
  laidOut : ∀ {i : Nat} {c : Chain}, store.chains[i]? = some c →
    ∃ input, (Input.attached inputs)[i]? = some input ∧ input.LaidOut c

/-- A cursor stands within a node of its input, and its offset counts the bytes before it. -/
def Places (store : Store) (cursor : Cursor) : Prop :=
  ∀ i place, cursor.anchor = some ⟨i, place⟩ →
    ∃ c node, store.chains[i]? = some c ∧ c.nodes[place.chunk]? = some node ∧
      place.index ≤ node.chunk.bytes.size ∧
      cursor.position.offset =
        ((c.nodes.toList.take place.chunk).flatMap (·.chunk.bytes.toList)).length + place.index

/-- What reads do to the inputs.  All nodes are kept, with their chunks and links, and an input
that none of the reads was made from is left alone.  Of the sources, those of inputs that were read
from are asked, and only for the room of their configuration. -/
structure Appends (inputs : List (String × Input)) (attempts : List Attempt)
    (store store' : Store) : Prop where
  reads : store'.reads.toList = store.reads.toList ++ attempts
  chains : ∀ {i : Nat} {c : Chain}, store.chains[i]? = some c →
    ∃ c', store'.chains[i]? = some c' ∧ Node.Kept c.nodes c'.nodes ∧
      (c' = c ∨ ∃ attempt ∈ attempts, attempt.cursor.On i)
  requests : ∃ events, store'.journal.toList = store.journal.toList ++ events ∧
    ∀ room, .asked room ∈ events → ∃ i source config,
      (Input.attached inputs)[i]? = some (.streaming source config) ∧
        room = max config.chunkSize 8 ∧ ∃ attempt ∈ attempts, attempt.cursor.On i

end Store

/-! ## Sessions -/

namespace Session

theorem enter_store (session : Session) (input : String × Input) :
    (session.enter input).store =
      { session.store with
        chains := session.store.chains ++ (input.2.chain.toList).toArray } := by
  obtain ⟨name, input⟩ := input
  cases input with
  | complete bytes => rfl
  | streaming source config => rfl
  | detached => simp [enter, Input.enter, Input.chain]

theorem start_store (grammar : Grammar) (inputs : List (String × Input)) :
    (start grammar inputs).store = ⟨(inputs.filterMap (·.2.chain)).toArray, #[], #[]⟩ := by
  have hfold : ∀ session : Session, (inputs.foldl enter session).store =
      { session.store with
        chains := session.store.chains ++ (inputs.filterMap (·.2.chain)).toArray } := by
    induction inputs with
    | nil =>
        intro session
        simp
    | cons input inputs ih =>
        intro session
        rw [List.foldl_cons, ih, enter_store]
        cases hchain : input.2.chain with
        | none => simp [hchain]
        | some start => simp [hchain]
  rw [start, hfold]
  simp [Store.empty]

/-- Every chain of a session belongs to an input and came from the chain that it began as. -/
theorem exists_input
    {grammar : Grammar} {inputs : List (String × Input)} {store : Store}
    (h : (start grammar inputs).store.Reaches store) {i : Nat} {c : Chain}
    (hchain : store.chains[i]? = some c) :
    ∃ input start, (Input.attached inputs)[i]? = some input ∧ input.chain = some start ∧
      start.Pulls c := by
  obtain ⟨attempts, hwidens⟩ := h.widens
  rw [start_store] at hwidens
  have hlt : i < (inputs.filterMap (·.2.chain)).length := by
    have := (Array.getElem?_eq_some_iff.1 hchain).1
    rwa [hwidens.size] at this
  obtain ⟨c', hchain', hpulls, -⟩ := hwidens.chains (Array.getElem?_eq_getElem hlt)
  rw [hchain] at hchain'
  cases hchain'
  have hmap := congrArg (·[i]?) (Input.map_chain_attached inputs)
  simp only [List.getElem?_map, List.getElem?_eq_getElem hlt, Option.map_some] at hmap
  obtain ⟨input, hinput, hstart⟩ := Option.map_eq_some_iff.1 hmap
  exact ⟨input, _, hinput, hstart, hpulls⟩

section

variable {grammar : Grammar} {inputs : List (String × Input)} {store store' : Store}

theorem laidOut_of_reaches (h : (start grammar inputs).store.Reaches store) :
    store.LaidOut inputs := by
  constructor
  · obtain ⟨attempts, hwidens⟩ := h.widens
    rw [hwidens.size, start_store, List.size_toArray]
    simpa using (congrArg List.length (Input.map_chain_attached inputs)).symm
  · intro i c hchain
    obtain ⟨input, first, hinput, hfirst, hpulls⟩ := exists_input h hchain
    exact ⟨input, hinput, hpulls.laidOut hfirst⟩

theorem places_of_known
    (h : (start grammar inputs).store.Reaches store) {cursor : Cursor}
    (hknown : store.Known cursor) : store.Places cursor := by
  intro i place hanchor
  have hholds := (fresh_start grammar inputs).holds.reaches h
  obtain ⟨view, hview⟩ := (hholds.sees hknown).exists_view hanchor
  cases hview with
  | @attached c _ position hchain hsound hmarks =>
      cases hanchor
      obtain ⟨chunk, hchunk, hindex⟩ := hmarks.within
      obtain ⟨node, hnode, rfl⟩ := Chain.exists_getElem?_nodes hchunk
      exact ⟨c, node, hchain, hnode, hindex, by rw [Chain.length_take_nodes, hmarks.offset_eq]⟩

theorem appends_of_reaches
    (h : (start grammar inputs).store.Reaches store) (h' : store.Reaches store') :
    ∃ attempts, Store.Appends inputs attempts store store' := by
  obtain ⟨attempts, hwidens⟩ := h'.widens
  refine ⟨attempts, hwidens.reads, ?_, ?_⟩
  · intro i c hchain
    obtain ⟨c', hchain', hpulls, hsame⟩ := hwidens.chains hchain
    exact ⟨c', hchain', hpulls.grown.kept, hsame⟩
  · obtain ⟨events, hjournal, hrooms⟩ := hwidens.requests
    refine ⟨events, hjournal, ?_⟩
    intro room hmem
    obtain ⟨i, c, hchain, hsource, hroom, hread⟩ := hrooms room hmem
    obtain ⟨input, first, hinput, hfirst, hpulls⟩ := exists_input h hchain
    have hgrown := hpulls.grown
    cases input with
    | streaming source config =>
        cases hfirst
        refine ⟨i, source, config, hinput, ?_, hread⟩
        rw [hroom, hgrown.config]
        rfl
    | complete bytes =>
        cases hfirst
        rw [hgrown.closed rfl] at hsource
        exact absurd rfl hsource
    | detached => cases hfirst

end

/-- The layout of all inputs is kept.  After any reads from known cursors, and so after any
operations of a session, all inputs are laid out and all cursors are in their places; and what is
read next, or done by the next operation, only appends to this. -/
theorem layout_kept (grammar : Grammar) (inputs : List (String × Input)) :
    (∀ store, (start grammar inputs).store.Reaches store →
      store.LaidOut inputs ∧ (∀ cursor, store.Known cursor → store.Places cursor) ∧
        ∀ store', store.Reaches store' → ∃ attempts, Store.Appends inputs attempts store store') ∧
    ∀ operations : List Operation,
      let session := ((start grammar inputs).run operations).2
      session.store.LaidOut inputs ∧
        (∀ name cursor, session.registers.get? name = some cursor →
          session.store.Places cursor) ∧
        ∀ operation, ∃ attempts,
          Store.Appends inputs attempts session.store (session.step operation).2.store := by
  constructor
  · intro store hreaches
    refine ⟨laidOut_of_reaches hreaches, ?_, ?_⟩
    · intro cursor hknown
      exact places_of_known hreaches hknown
    · intro store' hreaches'
      exact appends_of_reaches hreaches hreaches'
  · intro operations
    obtain ⟨hreaches, hregisters⟩ :=
      run_reaches (fresh_start grammar inputs).known operations
    refine ⟨laidOut_of_reaches hreaches, ?_, ?_⟩
    · intro name cursor hget
      exact places_of_known hreaches (hregisters.get? hget)
    · intro operation
      exact appends_of_reaches hreaches (step_reaches hregisters operation).1

/-- Of two streams one was read from, up to the middle of a scalar value. -/
theorem layout_kept_of_rune :
    let inputs : List (String × Input) :=
      [("s", .streaming ⟨.supplier, [.deliver [0xC3] false, .deliver [0xA9] true]⟩ ⟨4⟩),
        ("t", .streaming ⟨.reader, [.deliver [0x61] false]⟩ default)]
    let session := ((start ⟨[]⟩ inputs).run [.byte "s" "u"]).2
    session.store.chains.map (·.chunks.size) = #[2, 1] ∧
      session.store.LaidOut inputs ∧ (∃ cursor, session.registers.get? "u" = some cursor ∧
        session.store.Places cursor) ∧
      ∃ attempts, Store.Appends inputs attempts session.store
        (session.step (.rune "s" "s")).2.store := by
  intro inputs session
  obtain ⟨hlaid, hplaces, happends⟩ := (layout_kept ⟨[]⟩ inputs).2 [.byte "s" "u"]
  refine ⟨by decide +kernel, hlaid, ⟨⟨some ⟨0, ⟨1, 1⟩⟩, ⟨1, 1, 2⟩⟩, ?_⟩, happends _⟩
  have hget : session.registers.get? "u" = some ⟨some ⟨0, ⟨1, 1⟩⟩, ⟨1, 1, 2⟩⟩ := by
    decide +kernel
  exact ⟨hget, hplaces _ _ hget⟩

end Session
end StreamParse
