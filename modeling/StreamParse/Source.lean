/-!
# Sources

A source hands out the bytes of an input piece by piece.  What it is going to do is written down
beforehand as a script, one step for each request, so a source is plain data and every run over it
can be repeated.  A run that comes to an end has made finitely many requests, and whatever it was
answered, some script answers so: scripts leave out no run but those without end.

A request names the room there is.  A supplier answers it as the script says.  A reader knows less:
it reports nothing but a number of bytes, so a request that got no bytes counts as its end, and it
may be interrupted, after which the request is simply made again.
-/

namespace StreamParse

/-- The kinds of failure that a source may report.  Only an interruption makes a difference, so the
others just have their names. -/
inductive FailureKind where
  | interrupted
  | named (name : String)
  deriving DecidableEq

namespace FailureKind

def name : FailureKind → String
  | .interrupted => "Interrupted"
  | .named name => name

/-- The kind with a given name.  A failure without a name is of no kind. -/
def ofName? (name : String) : Option FailureKind :=
  if name.isEmpty then none
  else if name = interrupted.name then some .interrupted
  else some (.named name)

end FailureKind

structure SourceFailure where
  kind : FailureKind
  message : String
  deriving DecidableEq

/-- One step of a script. -/
inductive Step where
  /-- Hands out `bytes`; with `last` it adds that nothing follows them.  No bytes at all are a
  legitimate answer. -/
  | deliver (bytes : List UInt8) (last : Bool)
  /-- Reports a failure. -/
  | fail (failure : SourceFailure)
  /-- Writes nothing and claims `excess` bytes more than there was room for. -/
  | overclaim (excess : Nat)
  deriving DecidableEq

/-- The answer to one request. -/
inductive Answer where
  /-- These bytes were written; `exhausted` tells that none follow. -/
  | filled (bytes : List UInt8) (exhausted : Bool)
  | failed (failure : SourceFailure)
  /-- More bytes were claimed than there was room for. -/
  | overclaimed (claimed : Nat)
  deriving DecidableEq

namespace Step

/-- The number of bytes a step can hand out when it is offered room for `room` bytes.  A claim of
exactly the room there is counts as that many zero bytes, which is what an unused buffer holds. -/
def volume (room : Nat) : Step → Nat
  | .deliver bytes _ => bytes.length
  | .fail _ => 0
  | .overclaim 0 => room
  | .overclaim (_ + 1) => 0

end Step

/-- What a source is going to do, request by request.  After the last step it has nothing left. -/
abbrev Script := List Step

namespace Script

/-- Answers a request for at most `room` bytes.  Bytes that do not fit stay at the front of the
script, and then nothing is said about the end. -/
def supply (room : Nat) : Script → Answer × Script
  | [] => (.filled [] true, [])
  | .deliver bytes last :: rest =>
    match bytes.drop room with
    | [] => (.filled bytes last, rest)
    | left => (.filled (bytes.take room) false, .deliver left last :: rest)
  | .fail failure :: rest => (.failed failure, rest)
  | .overclaim 0 :: rest => (.filled (List.replicate room 0) false, rest)
  | .overclaim (excess + 1) :: rest => (.overclaimed (room + excess + 1), rest)

/-- Answers a request as a reader does: interruptions are passed over, and no bytes mean that none
follow.  The first component is the number of attempts. -/
def read (room : Nat) : Script → Nat × Answer × Script
  | .fail failure :: rest =>
    if failure.kind = .interrupted then
      let later := read room rest
      (later.1 + 1, later.2)
    else (1, .failed failure, rest)
  | script =>
    let given := supply room script
    match given.1 with
    | .filled bytes _ => (1, .filled bytes bytes.isEmpty, given.2)
    | answer => (1, answer, given.2)

/-- An upper bound on the work left in a script: its steps and the bytes they can hand out. -/
def weight (room : Nat) (script : Script) : Nat :=
  script.foldr (fun step rest => 1 + step.volume room + rest) 0

@[simp] theorem weight_nil (room : Nat) : weight room [] = 0 := rfl

@[simp] theorem weight_cons (room : Nat) (step : Step) (script : Script) :
    weight room (step :: script) = 1 + step.volume room + weight room script := by
  simp [weight]

theorem weight_supply {room : Nat} {script : Script} {bytes : List UInt8} {exhausted : Bool}
    (h : (supply room script).1 = .filled bytes exhausted) :
    weight room (supply room script).2 + bytes.length ≤ weight room script := by
  unfold supply at h ⊢
  split at h
  · simp_all
  · next given _ rest =>
    split at h <;> obtain ⟨rfl, rfl⟩ := by simpa using h
    · simp [Step.volume]
      omega
    · simp [Step.volume]
      omega
  · simp at h
  · obtain ⟨rfl, rfl⟩ := by simpa using h
    simp [Step.volume]
    omega
  · simp at h

theorem weight_supply_nil {room : Nat} (hroom : 0 < room) {script : Script}
    (h : (supply room script).1 = .filled [] false) :
    weight room (supply room script).2 < weight room script := by
  unfold supply at h ⊢
  split at h
  · simp at h
  · next given _ rest =>
    split at h
    · simp only [weight_cons]
      omega
    · next hleft =>
      have hnil : given.take room = [] := by simp_all
      rcases List.take_eq_nil_iff.1 hnil with h0 | h0
      · omega
      · simp_all
  · simp at h
  · have : List.replicate room (0 : UInt8) = [] := by simp_all
    simp at this
    omega
  · simp at h

theorem weight_read {room : Nat} {script : Script} {bytes : List UInt8} {exhausted : Bool}
    (h : (read room script).2.1 = .filled bytes exhausted) :
    weight room (read room script).2.2 + bytes.length ≤ weight room script := by
  fun_induction read room script with
  | case1 failure rest hkind later ih =>
    have : weight room later.2.2 + bytes.length ≤ weight room rest := ih h
    simp
    omega
  | case2 => simp at h
  | case3 script _ given written ended hgiven =>
    obtain ⟨rfl, -⟩ := by simpa using h
    exact weight_supply hgiven
  | case4 script _ given hne => exact absurd h (hne _ _)

/-- A reader answers without bytes at its end only. -/
theorem read_ne_nil (room : Nat) (script : Script) :
    (read room script).2.1 ≠ .filled [] false := by
  fun_induction read room script with
  | case1 failure rest hkind later ih => exact ih
  | case2 => simp
  | case3 script _ given written ended hgiven => cases written <;> simp
  | case4 script _ given hne => exact hne _ _

end Script

/-- How a source takes part in a request. -/
inductive Conduct where
  /-- Its answers stand as they are. -/
  | supplier
  /-- It is only read from. -/
  | reader
  deriving DecidableEq

/-- A source at some moment: its conduct and what it is still going to do. -/
structure Source where
  conduct : Conduct
  script : Script
  deriving DecidableEq

/-- One request to a source, answered. -/
structure Pull where
  /-- How often the source was asked until it gave the answer. -/
  attempts : Nat
  answer : Answer
  /-- The source afterwards. -/
  rest : Source

namespace Source

/-- Requests at most `room` bytes. -/
def pull (source : Source) (room : Nat) : Pull :=
  match source.conduct with
  | .supplier =>
    let given := source.script.supply room
    ⟨1, given.1, { source with script := given.2 }⟩
  | .reader =>
    let given := source.script.read room
    ⟨given.1, given.2.1, { source with script := given.2.2 }⟩

/-- An upper bound on the work left in a source. -/
def weight (source : Source) (room : Nat) : Nat :=
  source.script.weight room

/-- What a source hands out is taken off its script. -/
theorem weight_pull {source : Source} {room : Nat} {bytes : List UInt8} {exhausted : Bool}
    (h : (source.pull room).answer = .filled bytes exhausted) :
    (source.pull room).rest.weight room + bytes.length ≤ source.weight room := by
  unfold pull at h ⊢
  split at h
  · exact Script.weight_supply h
  · exact Script.weight_read h

/-- An answer without bytes that does not name the end has used up a step. -/
theorem weight_pull_nil {source : Source} {room : Nat} (hroom : 0 < room)
    (h : (source.pull room).answer = .filled [] false) :
    (source.pull room).rest.weight room < source.weight room := by
  unfold pull at h ⊢
  split at h
  · exact Script.weight_supply_nil hroom h
  · exact absurd h (Script.read_ne_nil room source.script)

end Source
end StreamParse
