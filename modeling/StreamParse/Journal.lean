import StreamParse.Source

/-!
# Journals

A journal records, in order, everything that passed between a run and its sources: each request,
each answer, and the notes that the run makes for its log.
-/

namespace StreamParse

/-- How much a note matters. -/
inductive Level where
  | trace | debug | warn
  deriving DecidableEq

def Level.name : Level → String
  | .trace => "TRACE"
  | .debug => "DEBUG"
  | .warn => "WARN"

/-- A line of the log. -/
inductive Note where
  | pulled (count room : Nat)
  | exhausted
  | retrying (empties : Nat)
  | failed (failure : SourceFailure)
  deriving DecidableEq

namespace Note

def level : Note → Level
  | .pulled _ _ => .trace
  | .exhausted => .debug
  | .retrying _ => .debug
  | .failed _ => .warn

def text : Note → String
  | .pulled count room =>
    "pulled " ++ toString count ++ " of " ++ toString room ++ " requested bytes"
  | .exhausted => "source exhausted"
  | .retrying empties => "retrying after " ++ toString empties ++ " empty pulls"
  | .failed failure => "pulling input failed: " ++ failure.message

end Note

/-- An entry of a journal. -/
inductive Event where
  /-- A source was asked for at most `room` bytes. -/
  | asked (room : Nat)
  /-- A source gave its answer to the last request. -/
  | answered (answer : Answer)
  | noted (note : Note)
  deriving DecidableEq

abbrev Journal := Array Event

namespace Journal

/-- How often sources were asked. -/
def requests (journal : Journal) : Nat :=
  (journal.filter fun | .asked _ => true | _ => false).size

def notes (journal : Journal) : List Note :=
  journal.toList.filterMap fun | .noted note => some note | _ => none

end Journal

/-- What a request and its answer leave in a journal. -/
def Pull.events (pull : Pull) (room : Nat) : List Event :=
  List.replicate pull.attempts (.asked room) ++ [.answered pull.answer]

end StreamParse
