import StreamParse.Cursor.Traversal

/-!
# Spans

A span is the input between two cursors of one input.  It was read before, so it is put together
from chunks that are at hand and nothing is pulled for it.
-/

namespace StreamParse

namespace Chain

def slice (c : Chain) (k start stop : Nat) : Except Fault (Array UInt8) :=
  match c.chunks[k]? with
  | none => .error (.inconsistent .chunkMissing)
  | some chunk =>
    if start ≤ stop ∧ stop ≤ chunk.bytes.size then .ok (chunk.bytes.extract start stop)
    else .error (.inconsistent .beyondChunk)

def sliceFrom (c : Chain) (k start : Nat) : Except Fault (Array UInt8) :=
  match c.chunks[k]? with
  | none => .error (.inconsistent .chunkMissing)
  | some chunk => c.slice k start chunk.bytes.size

/-- The bytes of the chunks from number `first` up to but not including number `last`. -/
def between (c : Chain) (first last : Nat) : Array UInt8 :=
  (c.chunks.extract first last).foldl (fun bytes chunk => bytes ++ chunk.bytes) #[]

/-- The bytes from one place to another.  The second is found within the chunk of the first or in
a later one. -/
def span (c : Chain) (start stop : Place) : Except Fault (Array UInt8) := do
  if start.chunk = stop.chunk ∧ start.index ≤ stop.index then
    c.slice start.chunk start.index stop.index
  else if start.chunk < stop.chunk then
    let head ← c.sliceFrom start.chunk start.index
    let tail ← c.slice stop.chunk 0 stop.index
    return head ++ c.between (start.chunk + 1) stop.chunk ++ tail
  else .error .spanUnreachable

end Chain

namespace Cursor

/-- The input from one cursor to another.  Which fault is reported for a span that is none is
decided in this order: by the offsets, by cursors without input, by the chains. -/
def bytesUntil (start stop : Cursor) : Run (Array UInt8) :=
  if stop.position.offset < start.position.offset then .fault .spanReversed
  else
    match start.anchor, stop.anchor with
    | none, _ => .fault .detached
    | some _, none => .fault .detached
    | some first, some last =>
      if first.chain = last.chain then
        ⟨fun store =>
          match store.chains[first.chain]? with
          | none => (.error (.inconsistent .chunkMissing), store)
          | some chain =>
            match chain.span first.place last.place with
            | .error fault => (.error fault, store)
            | .ok bytes =>
              if bytes.size = stop.position.offset - start.position.offset then (.ok bytes, store)
              else (.error (.inconsistent .spanLength), store)⟩
      else .fault .spanUnreachable

/-- The input from one cursor to another as text.  If it is none, the error points to its first
malformed sequence, which may be one that only the end of the span cuts short. -/
def textUntil (start stop : Cursor) : Run (Except Error String) := do
  let bytes ← start.bytesUntil stop
  let (text, rest) := Utf8.decode bytes.toList
  if rest.isEmpty then return .ok (String.ofList text)
  else
    let found ← start.seek (start.position.offset + (bytes.size - rest.length))
    return .error (.invalidEncoding found.position)

end Cursor
end StreamParse
