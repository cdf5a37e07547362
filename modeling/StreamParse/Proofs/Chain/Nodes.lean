import StreamParse.Proofs.Chain.Layout

/-!
# Chains as linked nodes

In memory a chain is made of nodes.  Each of them has a chunk, a cell for the source and a cell for
the link to the node after it.  Asking a node for the next one takes the source out of its cell,
pulls, and puts what is left of the source into a new node before it links that node.

A chain with one source for all its chunks says the same: asking either form for the next chunk
comes to the same, and no node other than the last one ever holds the source.
-/

namespace StreamParse

/-- A node of a chain in memory. -/
structure Node where
  chunk : Chunk
  source : Option Source
  /-- The number of the node after it. -/
  next : Option Nat

namespace Node

/-- The number of the node after node `k`, which is pulled and linked if there is none yet. -/
def follow (config : Config) (k : Nat) : Action (Array Node × Journal) (Option Nat) :=
  ⟨fun (nodes, journal) =>
    match nodes[k]? with
    | none => (.error (.inconsistent .chunkMissing), nodes, journal)
    | some node =>
      match node.next with
      | some number => (.ok (some number), nodes, journal)
      | none =>
        match node.source with
        | none => (.ok none, nodes, journal)
        | some source =>
          -- The cell is empty from here on, also if the pull ends in a fault.
          let taken := nodes.setIfInBounds k { node with source := none }
          let fill := source.fill config 0
          let journal := journal ++ fill.events
          match fill.outcome with
          | .error fault => (.error fault, taken, journal)
          | .ok (chunk, rest) =>
            let linked := taken.setIfInBounds k ⟨node.chunk, none, some nodes.size⟩
            (.ok (some nodes.size), linked.push ⟨chunk, rest, none⟩, journal)⟩

/-- Following nodes leads from one memory to the other, whatever the journal was at each time. -/
inductive Links (config : Config) (nodes : Array Node) : Array Node → Prop
  | refl : Links config nodes nodes
  | follow {nodes' : Array Node} (k : Nat) (journal : Journal) :
    Links config nodes nodes' →
      Links config nodes ((Node.follow config k).run (nodes', journal)).2.1

/-- Every node is still there with its chunk, and so is every link. -/
def Kept (nodes nodes' : Array Node) : Prop :=
  ∀ ⦃k : Nat⦄ ⦃node : Node⦄, nodes[k]? = some node →
    ∃ node', nodes'[k]? = some node' ∧ node'.chunk = node.chunk ∧
      ∀ number, node.next = some number → node'.next = some number

end Node

namespace Chain

/-- The nodes that a chain stands for: each is linked to the one after it, and the last one holds
the source. -/
def nodes (c : Chain) : Array Node :=
  c.chunks.mapIdx fun k chunk =>
    if k + 1 = c.chunks.size then ⟨chunk, c.source, none⟩ else ⟨chunk, none, some (k + 1)⟩

@[simp] theorem size_nodes (c : Chain) : c.nodes.size = c.chunks.size :=
  Array.size_mapIdx

theorem getElem?_nodes (c : Chain) (k : Nat) :
    c.nodes[k]? = c.chunks[k]?.map fun chunk =>
      if k + 1 = c.chunks.size then ⟨chunk, c.source, none⟩ else ⟨chunk, none, some (k + 1)⟩ :=
  Array.getElem?_mapIdx

theorem getElem?_nodes_of_lt {c : Chain} {k : Nat} (h : k + 1 < c.chunks.size) :
    c.nodes[k]? = some ⟨c.chunks[k], none, some (k + 1)⟩ := by
  rw [getElem?_nodes, Array.getElem?_eq_getElem (by omega), Option.map_some, if_neg (by omega)]

theorem getElem?_nodes_of_last {c : Chain} {k : Nat} (h : k + 1 = c.chunks.size) :
    c.nodes[k]? = some ⟨c.chunks[k], c.source, none⟩ := by
  rw [getElem?_nodes, Array.getElem?_eq_getElem (by omega), Option.map_some, if_pos h]

theorem of_getElem?_nodes
    {c : Chain} {k : Nat} {node : Node} (h : c.nodes[k]? = some node) :
    c.chunks[k]? = some node.chunk ∧
      node.source = (if k + 1 = c.chunks.size then c.source else none) ∧
        node.next = if k + 1 = c.chunks.size then none else some (k + 1) := by
  rw [getElem?_nodes] at h
  obtain ⟨chunk, hchunk, rfl⟩ := Option.map_eq_some_iff.1 h
  split
  · exact ⟨hchunk, rfl, rfl⟩
  · exact ⟨hchunk, rfl, rfl⟩

theorem exists_getElem?_nodes
    {c : Chain} {k : Nat} {chunk : Chunk} (h : c.chunks[k]? = some chunk) :
    ∃ node, c.nodes[k]? = some node ∧ node.chunk = chunk := by
  refine ⟨_, by rw [getElem?_nodes, h, Option.map_some], ?_⟩
  split
  · rfl
  · rfl

/-- Dropping the source of a chain empties the cell of its last node. -/
theorem nodes_drop
    {c : Chain} {k : Nat} {chunk : Chunk} (hlast : k + 1 = c.chunks.size)
    (hchunk : c.chunks[k]? = some chunk) :
    c.nodes.setIfInBounds k ⟨chunk, none, none⟩ = ({ c with source := none } : Chain).nodes := by
  apply Array.ext_getElem?
  intro j
  rw [Array.getElem?_setIfInBounds, getElem?_nodes, getElem?_nodes, size_nodes]
  by_cases hjk : k = j
  · subst hjk
    rw [if_pos rfl, if_pos (by omega), hchunk, Option.map_some, if_pos hlast]
  · have hj : ¬ j + 1 = c.chunks.size := by omega
    simp [hjk, hj]

/-- A chunk that is pulled becomes a node, linked to the one that was the last. -/
theorem nodes_push
    {c : Chain} {k : Nat} {last : Chunk} (hlast : k + 1 = c.chunks.size)
    (hchunk : c.chunks[k]? = some last) (chunk : Chunk) (rest : Option Source) :
    (c.nodes.setIfInBounds k ⟨last, none, some c.chunks.size⟩).push ⟨chunk, rest, none⟩ =
      (c.push chunk rest).nodes := by
  apply Array.ext_getElem?
  intro j
  rw [Array.getElem?_push, Array.getElem?_setIfInBounds, getElem?_nodes, getElem?_nodes,
    Array.size_setIfInBounds, size_nodes]
  simp only [push, Array.size_push, Array.getElem?_push]
  by_cases hj : j = c.chunks.size
  · simp [hj]
  · by_cases hjk : k = j
    · subst hjk
      obtain ⟨hlt, rfl⟩ := Array.getElem?_eq_some_iff.1 hchunk
      simp [← hlast]
    · have hj' : ¬ j + 1 = c.chunks.size := by omega
      simp [hj, hjk, hj']

end Chain

namespace Node

open Chain

/-- Following a node of a chain is asking the chain for the next chunk. -/
theorem run_follow_nodes (feed : Feed) (k : Nat) :
    (follow feed.chain.config k).run (feed.chain.nodes, feed.journal) =
      (((Feed.next k).run feed).1.map (·.map fun _ => k + 1),
        ((Feed.next k).run feed).2.chain.nodes, ((Feed.next k).run feed).2.journal) := by
  have hasked := Feed.asked_next feed k
  generalize (Feed.next k).run feed = result at hasked ⊢
  cases hasked with
  | present hnext =>
      simp only [follow, getElem?_nodes_of_lt (Array.getElem?_eq_some_iff.1 hnext).1]
      rfl
  | beyond hbeyond =>
      have hnode : feed.chain.nodes[k]? = none := by
        rw [getElem?_nodes, Array.getElem?_eq_none hbeyond, Option.map_none]
      simp only [follow, hnode]
      rfl
  | last hlast hsource =>
      simp only [follow, getElem?_nodes_of_last hlast, hsource]
      rfl
  | dropped hlast hsource hfill =>
      have hchunk := Array.getElem?_eq_getElem (by omega : k < feed.chain.chunks.size)
      simp only [follow, getElem?_nodes_of_last hlast, hsource, hfill, nodes_drop hlast hchunk]
      rfl
  | pulled hlast hsource hfill =>
      have hchunk := Array.getElem?_eq_getElem (by omega : k < feed.chain.chunks.size)
      simp only [follow, getElem?_nodes_of_last hlast, hsource, hfill, size_nodes,
        Array.setIfInBounds_setIfInBounds, nodes_push hlast hchunk]
      simp only [Except.map, Option.map_some, hlast]

/-- The memories that are reached by following nodes are those of the chains that are reached by
asking for chunks. -/
theorem links_iff {c : Chain} {nodes : Array Node} :
    Links c.config c.nodes nodes ↔ ∃ c', c.Pulls c' ∧ c'.nodes = nodes := by
  constructor
  · intro h
    induction h with
    | refl => exact ⟨c, .refl, rfl⟩
    | follow k journal _ ih =>
        obtain ⟨c', hpulls, rfl⟩ := ih
        refine ⟨_, .next k journal hpulls, ?_⟩
        rw [← hpulls.grown.config, run_follow_nodes ⟨c', journal⟩ k]
  · rintro ⟨c', hpulls, rfl⟩
    induction hpulls with
    | refl => exact .refl
    | @next c' k journal hpulls ih =>
        have hlinks := Links.follow k journal ih
        rw [← hpulls.grown.config, run_follow_nodes ⟨c', journal⟩ k, hpulls.grown.config] at hlinks
        exact hlinks

end Node

namespace Chain

theorem Grown.kept {c c' : Chain} (h : c.Grown c') : Node.Kept c.nodes c'.nodes := by
  intro k node hnode
  obtain ⟨hchunk, -, hnext⟩ := of_getElem?_nodes hnode
  obtain ⟨node', hnode', hsame⟩ := exists_getElem?_nodes (h.getElem? hchunk)
  obtain ⟨-, -, hnext'⟩ := of_getElem?_nodes hnode'
  refine ⟨node', hnode', hsame, ?_⟩
  intro number hnumber
  have hle : c.chunks.size ≤ c'.chunks.size := h.chunks.length_le
  have hlt := (Array.getElem?_eq_some_iff.1 hchunk).1
  rw [hnext] at hnumber
  split at hnumber
  · cases hnumber
  · rw [hnext', if_neg (by omega)]
    exact hnumber

end Chain
end StreamParse
