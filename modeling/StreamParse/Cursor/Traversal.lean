import StreamParse.Store

/-!
# Traversals

A traversal reads unit after unit and gathers what it reads.  It ends where its own rule says so,
before a unit that the rule does not accept, or at the first error.
-/

namespace StreamParse

/-- Where a traversal ended, with what it gathered. -/
structure Traversal (β : Type) where
  gathered : β
  cursor : Cursor
  /-- The error that ended it, if one did. -/
  error : Option Error

structure TraversalRule (α β : Type) where
  /-- Whether another unit is wanted after what was gathered up to a cursor. -/
  wants : β → Cursor → Bool
  /-- Whether a unit belongs to the traversal. -/
  accepts : α → Bool
  /-- One more unit. -/
  add : β → α → β

namespace Cursor

variable {α β : Type}

/-- Reads units as long as the rule wants and accepts them. -/
def traverse (r : Reading α) (rule : TraversalRule α β) (gathered : β) (cursor : Cursor)
    (store : Store) : Except Fault (Traversal β) × Store :=
  if rule.wants gathered cursor then
    match h : (cursor.read r).run store with
    | (.error fault, store) => (.error fault, store)
    | (.ok (.error error), store) => (.ok ⟨gathered, cursor, some error⟩, store)
    | (.ok (.ok (unit, next)), store) =>
      have := remaining_read h
      if rule.accepts unit then traverse r rule (rule.add gathered unit) next store
      else (.ok ⟨gathered, cursor, none⟩, store)
  else (.ok ⟨gathered, cursor, none⟩, store)
termination_by store.remaining cursor

/-- Reads units as long as they are accepted, and adds them to `start`. -/
def readWhile (r : Reading α) (accepts : α → Bool) (add : β → α → β) (start : β)
    (cursor : Cursor) : Run (Traversal β) :=
  ⟨traverse r ⟨fun _ _ => true, accepts, add⟩ start cursor⟩

/-- Reads at most `limit` units, or all that can be read. -/
def readUpTo (r : Reading α) (limit : Option Nat) (cursor : Cursor) : Run (Traversal (Array α)) :=
  let wants (units : Array α) (_ : Cursor) : Bool :=
    match limit with
    | none => true
    | some n => units.size < n
  ⟨traverse r ⟨wants, fun _ => true, Array.push⟩ #[] cursor⟩

/-- Reads by scalar values until `offset` is reached, or as far as that goes. -/
def seek (offset : Nat) (cursor : Cursor) : Run Cursor := do
  let wants (_ : Unit) (cursor : Cursor) : Bool := cursor.position.offset < offset
  let traversal ← ⟨traverse .runes ⟨wants, fun _ => true, fun _ _ => ()⟩ () cursor⟩
  return traversal.cursor

end Cursor
end StreamParse
