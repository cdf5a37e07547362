import StreamParse.Proofs.Content
import StreamParse.Session

/-!
# Readers lose nothing

A reader hands out its data piece by piece, with interruptions between the pieces, and no bytes at
its end.  Requests of any sizes take the data off the front, without loss or duplication, and none
of them is interrupted.

An answer without bytes is taken as the end.  It is one where there was room for a byte.  A request
without any room gets no bytes either, whatever is left.
-/

namespace StreamParse

/-- Reads get the given data from a script: piece by piece, with interruptions between the pieces,
and no bytes at the end. -/
inductive Script.Hands : Script → List UInt8 → Prop
  | ended : Hands [] []
  | piece {bytes data : List UInt8} {last : Bool} {rest : Script} :
    bytes ≠ [] → Hands rest data → Hands (.deliver bytes last :: rest) (bytes ++ data)
  | nothing {last : Bool} {rest : Script} :
    Hands rest [] → Hands (.deliver [] last :: rest) []
  | interrupted {failure : SourceFailure} {data : List UInt8} {rest : Script} :
    failure.kind = .interrupted → Hands rest data → Hands (.fail failure :: rest) data

def Answer.written : Answer → List UInt8
  | .filled bytes _ => bytes
  | .failed _ => []
  | .overclaimed _ => []

/-- The bytes that were written in answer to all requests, in order. -/
def Pull.written (pulls : List Pull) : List UInt8 :=
  pulls.flatMap (·.answer.written)

/-- A request of a size takes bytes off the front of the data: as many as there is room for or
fewer, and none only where there is no room or nothing left.  Then, and only then, the end is
reported. -/
structure Answer.Takes (answer : Answer) (room : Nat) (data bytes more : List UInt8) : Prop where
  answer_eq : answer = .filled bytes bytes.isEmpty
  data_eq : data = bytes ++ more
  length_le : bytes.length ≤ room
  eq_nil_iff : bytes = [] ↔ room = 0 ∨ data = []

namespace Script

variable {script rest : Script} {data bytes : List UInt8} {room : Nat}

theorem read_deliver_of_le (h : bytes.length ≤ room) (last : Bool) (rest : Script) :
    read room (.deliver bytes last :: rest) = (1, .filled bytes bytes.isEmpty, rest) := by
  simp only [read, supply_deliver_of_le h]

theorem read_deliver_of_lt (h : room < bytes.length) (last : Bool) (rest : Script) :
    read room (.deliver bytes last :: rest) =
      (1, .filled (bytes.take room) (bytes.take room).isEmpty,
        .deliver (bytes.drop room) last :: rest) := by
  simp only [read, supply_deliver_of_lt h]

theorem Hands.exists_takes (h : script.Hands data) (room : Nat) :
    ∃ bytes more, (script.read room).2.1.Takes room data bytes more ∧
      (script.read room).2.2.Hands more := by
  induction h with
  | ended =>
      exact ⟨[], [], ⟨rfl, rfl, Nat.zero_le _, iff_of_true rfl (Or.inr rfl)⟩, .ended⟩
  | @piece bytes data last rest hne hrest ih =>
      have hleft : bytes ++ data ≠ [] := List.append_ne_nil_of_left_ne_nil hne data
      have hlength : 0 < bytes.length := List.length_pos_iff.2 hne
      rcases Nat.lt_or_ge room bytes.length with hlt | hge
      · refine ⟨bytes.take room, bytes.drop room ++ data, ?_, ?_⟩
        · rw [read_deliver_of_lt hlt]
          refine ⟨rfl, ?_, List.length_take_le room bytes, ?_⟩
          · rw [← List.append_assoc, List.take_append_drop]
          · rw [List.take_eq_nil_iff, or_iff_left hne, or_iff_left hleft]
        · rw [read_deliver_of_lt hlt]
          refine .piece ?_ hrest
          rw [ne_eq, List.drop_eq_nil_iff]
          exact Nat.not_le.2 hlt
      · refine ⟨bytes, data, ?_, ?_⟩
        · rw [read_deliver_of_le hge]
          refine ⟨rfl, rfl, hge, iff_of_false hne ?_⟩
          rintro (hroom | hnil)
          · omega
          · exact hleft hnil
        · rw [read_deliver_of_le hge]
          exact hrest
  | @nothing last rest hrest ih =>
      refine ⟨[], [], ?_, ?_⟩
      · rw [read_deliver_of_le (Nat.zero_le room)]
        exact ⟨rfl, rfl, Nat.zero_le _, iff_of_true rfl (Or.inr rfl)⟩
      · rw [read_deliver_of_le (Nat.zero_le room)]
        exact hrest
  | @interrupted failure data rest hkind hrest ih =>
      simp only [read, if_pos hkind]
      exact ih

end Script

/-- Requests in turn, each of which takes what it gets off the front of what those before it
left. -/
inductive Pull.Serve : List UInt8 → List Nat → List Pull → List UInt8 → Prop
  | nil {data : List UInt8} : Serve data [] [] data
  | cons {data bytes more left : List UInt8} {room : Nat} {rooms : List Nat} {pull : Pull}
    {pulls : List Pull} :
    pull.answer.Takes room data bytes more → Serve more rooms pulls left →
      Serve data (room :: rooms) (pull :: pulls) left

namespace Pull.Serve

variable {data left : List UInt8} {room : Nat} {rooms : List Nat} {pull : Pull} {pulls : List Pull}

theorem length_eq (h : Serve data rooms pulls left) : pulls.length = rooms.length := by
  induction h with
  | nil => rfl
  | cons _ _ ih => rw [List.length_cons, List.length_cons, ih]

/-- What was written and what is left make up the data. -/
theorem written_append (h : Serve data rooms pulls left) : written pulls ++ left = data := by
  induction h with
  | nil => rfl
  | @cons data bytes more left room rooms pull pulls htakes _ ih =>
      have hfirst : written (pull :: pulls) = bytes ++ written pulls := by
        rw [written, List.flatMap_cons, htakes.answer_eq]
        rfl
      rw [hfirst, htakes.data_eq, List.append_assoc, ih]

theorem split (h : Serve data rooms pulls left) (k : Nat) :
    ∃ mid, Serve data (rooms.take k) (pulls.take k) mid ∧
      Serve mid (rooms.drop k) (pulls.drop k) left := by
  induction k generalizing data rooms pulls with
  | zero => exact ⟨data, .nil, h⟩
  | succ k ih =>
      cases h with
      | nil => exact ⟨left, .nil, .nil⟩
      | cons htakes hrest =>
          obtain ⟨mid, hbefore, hafter⟩ := ih hrest
          exact ⟨mid, .cons htakes hbefore, hafter⟩

/-- A single request takes bytes off what is left by those before it. -/
theorem exists_takes
    (h : Serve data rooms pulls left) {k : Nat} (hroom : rooms[k]? = some room)
    (hpull : pulls[k]? = some pull) :
    ∃ mid bytes more, written (pulls.take k) ++ mid = data ∧
      pull.answer.Takes room mid bytes more := by
  obtain ⟨mid, hbefore, hafter⟩ := h.split k
  obtain ⟨hlt, hroom⟩ := List.getElem?_eq_some_iff.1 hroom
  obtain ⟨hlt', hpull⟩ := List.getElem?_eq_some_iff.1 hpull
  rw [List.drop_eq_getElem_cons hlt, hroom, List.drop_eq_getElem_cons hlt', hpull] at hafter
  cases hafter with
  | cons htakes _ => exact ⟨mid, _, _, hbefore.written_append, htakes⟩

end Pull.Serve

namespace Source

variable {script : Script} {data : List UInt8}

/-- A reader serves requests of any sizes with its data. -/
theorem exists_serve (h : script.Hands data) (rooms : List Nat) :
    ∃ left, Pull.Serve data rooms ((Source.mk .reader script).pullAll rooms).1 left ∧
      ((Source.mk .reader script).pullAll rooms).2.script.Hands left := by
  induction rooms generalizing script data with
  | nil => exact ⟨data, .nil, h⟩
  | cons room rooms ih =>
      obtain ⟨bytes, more, htakes, hrest⟩ := h.exists_takes room
      obtain ⟨left, hserve, hleft⟩ := ih hrest
      exact ⟨left, .cons htakes hserve, hleft⟩

/-- Readers lose nothing.  However the data of a reader comes in pieces, with whatever interruptions
between them, requests of any sizes are all answered with bytes, no more than there is room for.
These are, in order, the beginning of the data, without loss or duplication, and the reader still
hands out the rest.  A request reports the end exactly if everything was handed out before, or if it
offers no room at all. -/
theorem requests_lossless
    (script : Script) (data : List UInt8) (h : script.Hands data) (rooms : List Nat) :
    let run := (Source.mk .reader script).pullAll rooms
    run.1.length = rooms.length ∧
    (∃ left, Pull.written run.1 ++ left = data ∧ run.2.script.Hands left) ∧
    ∀ (k room : Nat) pull, rooms[k]? = some room → run.1[k]? = some pull →
      ∃ bytes exhausted, pull.answer = .filled bytes exhausted ∧ bytes.length ≤ room ∧
        (exhausted = true ↔ room = 0 ∨ Pull.written (run.1.take k) = data) := by
  intro run
  obtain ⟨left, hserve, hleft⟩ := exists_serve h rooms
  refine ⟨hserve.length_eq, ⟨left, hserve.written_append, hleft⟩, ?_⟩
  intro k room pull hroom hpull
  obtain ⟨mid, bytes, more, hdata, htakes⟩ := hserve.exists_takes hroom hpull
  refine ⟨bytes, bytes.isEmpty, htakes.answer_eq, htakes.length_le, ?_⟩
  rw [List.isEmpty_iff, htakes.eq_nil_iff, ← hdata, List.self_eq_append_right]

/-- Two pieces with interruptions before each of them.  The second request offers no room, the third
takes the rest of the first piece, and the last finds nothing left. -/
theorem requests_lossless_of_interruptions :
    let interrupt : Step := .fail ⟨.interrupted, "again"⟩
    let script : Script :=
      [interrupt, .deliver [0x61, 0x62] false, interrupt, interrupt, .deliver [0x63] false]
    let run := (Source.mk .reader script).pullAll [1, 0, 4, 4, 4]
    script.Hands [0x61, 0x62, 0x63] ∧
      run.1.map (·.answer) = [.filled [0x61] false, .filled [] true, .filled [0x62] false,
        .filled [0x63] false, .filled [] true] ∧
      ∃ left, Pull.written run.1 ++ left = [0x61, 0x62, 0x63] ∧ run.2.script.Hands left := by
  intro interrupt script run
  have hlast : Script.Hands [.deliver [0x63] false] [0x63] := .piece (by simp) .ended
  have hfirst : script.Hands ([0x61, 0x62] ++ [0x63]) :=
    .interrupted rfl (.piece (by simp) (.interrupted rfl (.interrupted rfl hlast)))
  obtain ⟨-, hleft, -⟩ := requests_lossless script _ hfirst [1, 0, 4, 4, 4]
  exact ⟨hfirst, by decide, hleft⟩

/-- A request that offers no room gets no bytes, and this is taken as the end although there are
data left. -/
theorem not_exhausted_only_at_end :
    ¬ ∀ (script : Script) (data : List UInt8), script.Hands data → ∀ (rooms : List Nat),
      let run := (Source.mk .reader script).pullAll rooms
      ∀ (k : Nat) pull bytes, run.1[k]? = some pull → pull.answer = .filled bytes true →
        Pull.written (run.1.take (k + 1)) = data := by
  intro h
  have hhands : Script.Hands [.deliver [0x61] false] [0x61] := .piece (by simp) .ended
  have hwritten := h _ _ hhands [0, 1] 0 _ [] rfl rfl
  cases hwritten

end Source
end StreamParse
