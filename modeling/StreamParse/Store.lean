import StreamParse.Chain.Read

/-!
# Stores

A store holds the chains of all inputs of a session, with one journal for what passed between them
and their sources.  A cursor stands at a place of one of these chains; copying it costs nothing,
and since chains only ever grow, keeping one is all it takes to come back to it.
-/

namespace StreamParse

/-- A place in one of the chains of a store. -/
structure Anchor where
  chain : Nat
  place : Place
  deriving DecidableEq

/-- A point of an input from which reading can go on.  The default cursor belongs to no input.
Two cursors are the same when they stand at the same place and got there with the same position. -/
structure Cursor where
  anchor : Option Anchor
  position : Position
  deriving DecidableEq, Inhabited

/-- The units that inputs are read by. -/
inductive Grain where
  | byte | rune
  deriving DecidableEq

/-- A read that was made: where, by which unit, and what came of it.  The unit that was read is
given by its code. -/
structure Attempt where
  grain : Grain
  cursor : Cursor
  outcome : Except Fault (Except Error (Nat × Cursor))

/-- The chains of a session and its journal. -/
structure Store where
  chains : Array Chain
  journal : Journal
  /-- The reads made so far, in order.  They are kept for the record: no read depends on them. -/
  reads : Array Attempt

/-- An action that may read from any chain. -/
abbrev Run (α : Type) := Action Store α

namespace Store

def empty : Store := ⟨#[], #[], #[]⟩

/-- Adds an input, with a cursor at its start. -/
def insert (store : Store) (chain : Chain) : Cursor × Store :=
  (⟨some ⟨store.chains.size, ⟨0, 0⟩⟩, .start⟩, { store with chains := store.chains.push chain })

/-- Acts on chain `i` only. -/
def onChain {α : Type} (i : Nat) (x : Action Feed α) : Run α :=
  ⟨fun store =>
    match store.chains[i]? with
    | none => (.error (.inconsistent .chunkMissing), store)
    | some chain =>
      match x.run ⟨chain, store.journal⟩ with
      | (outcome, feed) =>
        (outcome,
          { store with
            chains := store.chains.setIfInBounds i feed.chain
            journal := feed.journal })⟩

def record (store : Store) (attempt : Attempt) : Store :=
  { store with reads := store.reads.push attempt }

/-- The bytes after a cursor, those at hand and at most those still to come. -/
def remaining (store : Store) (cursor : Cursor) : Nat :=
  match cursor.anchor with
  | none => 0
  | some anchor =>
    match store.chains[anchor.chain]? with
    | none => 0
    | some chain => chain.remaining anchor.place

@[simp] theorem remaining_record (store : Store) (attempt : Attempt) (cursor : Cursor) :
    (store.record attempt).remaining cursor = store.remaining cursor := rfl

/-- The bytes at hand after a cursor: the rest of its chunk. -/
def atHand (store : Store) (anchor : Anchor) : List UInt8 :=
  match store.chains[anchor.chain]?.bind (·.chunks[anchor.place.chunk]?) with
  | none => []
  | some chunk => chunk.bytes.toList.drop anchor.place.index

end Store

/-- The error for a read that stopped at a position. -/
def Halt.error (position : Position) : Halt → Error
  | .ended => .endOfInput
  | .malformed => .invalidEncoding position
  | .failed failure => .positioned position (.source failure)

/-- How inputs are read by a kind of unit. -/
structure Reading (α : Type) where
  grain : Grain
  /-- Reads the unit that begins at a place. -/
  read : Place → Action Feed (Except Halt (α × Place))
  /-- How many bytes a unit takes. -/
  width : α → Nat
  /-- The code of a unit, by which line feeds are known. -/
  code : α → Nat
  /-- A unit that was read is no longer to come. -/
  remaining_read : ∀ {place place' : Place} {feed feed' : Feed} {unit : α},
    (read place).run feed = (.ok (.ok (unit, place')), feed') →
      feed'.chain.remaining place' < feed.chain.remaining place

namespace Reading

def bytes : Reading UInt8 where
  grain := .byte
  read := Feed.byte
  width _ := 1
  code b := b.toNat
  remaining_read := Feed.remaining_byte

def runes : Reading Char where
  grain := .rune
  read := Feed.rune
  width c := c.utf8Size
  code c := c.toNat
  remaining_read := Feed.remaining_rune

end Reading

namespace Cursor

variable {α : Type}

/-- The next unit, with the cursor after it. -/
def unit (r : Reading α) (cursor : Cursor) : Run (Except Error (α × Cursor)) :=
  match cursor.anchor with
  | none => .fault .detached
  | some anchor => do
    match ← Store.onChain anchor.chain (r.read anchor.place) with
    | .error halt => return .error (halt.error cursor.position)
    | .ok (unit, place) =>
      return .ok (unit,
        ⟨some { anchor with place }, cursor.position.advance (r.width unit) (r.code unit)⟩)

/-- Reads the next unit, with the cursor after it. -/
def read (r : Reading α) (cursor : Cursor) : Run (Except Error (α × Cursor)) :=
  ⟨fun store =>
    let (outcome, store) := (cursor.unit r).run store
    let coded := outcome.map (·.map fun (unit, next) => (r.code unit, next))
    (outcome, store.record ⟨r.grain, cursor, coded⟩)⟩

/-- Reads the next byte, with the cursor after it. -/
def byte (cursor : Cursor) : Run (Except Error (UInt8 × Cursor)) :=
  cursor.read .bytes

/-- Reads the next scalar value, with the cursor after it. -/
def rune (cursor : Cursor) : Run (Except Error (Char × Cursor)) :=
  cursor.read .runes

theorem remaining_unit {r : Reading α} {cursor cursor' : Cursor} {store store' : Store} {unit : α}
    (h : (cursor.unit r).run store = (.ok (.ok (unit, cursor')), store')) :
    store'.remaining cursor' < store.remaining cursor := by
  obtain ⟨anchor, position⟩ := cursor
  cases anchor with
  | none => simp [Cursor.unit] at h
  | some anchor =>
    simp only [Cursor.unit, Action.run_bind, Store.onChain] at h
    cases hchain : store.chains[anchor.chain]? with
    | none => simp [hchain] at h
    | some chain =>
      simp only [hchain] at h
      have hlt := (Array.getElem?_eq_some_iff.1 hchain).1
      rcases hread : (r.read anchor.place).run ⟨chain, store.journal⟩ with
        ⟨fault | halt | ⟨unit', place'⟩, feed⟩
      · simp [hread] at h
      · simp [hread] at h
      · simp only [hread, Action.run_pure, Prod.mk.injEq, Except.ok.injEq] at h
        obtain ⟨⟨-, rfl⟩, rfl⟩ := h
        simp only [Store.remaining, hchain, Array.getElem?_setIfInBounds, hlt, if_true]
        exact r.remaining_read hread

/-- A unit that was read is no longer to come. -/
theorem remaining_read {r : Reading α} {cursor cursor' : Cursor} {store store' : Store} {unit : α}
    (h : (cursor.read r).run store = (.ok (.ok (unit, cursor')), store')) :
    store'.remaining cursor' < store.remaining cursor := by
  rcases hunit : (cursor.unit r).run store with ⟨outcome, store₁⟩
  simp only [read, hunit, Prod.mk.injEq] at h
  obtain ⟨rfl, rfl⟩ := h
  rw [Store.remaining_record]
  exact remaining_unit hunit

end Cursor
end StreamParse
