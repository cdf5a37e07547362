import Mathlib.Tactic.Common
import StreamParse.Chain.Read

/-!
# The content of an input

The content of an input is the string of all bytes that it delivers, together with the way in which
it ends.  It is read off what the source is going to do, without regard to how its bytes are cut
into chunks: what an answer hands out is taken off the front of the content, and what a pulled chunk
holds is taken off it in the same way.
-/

namespace StreamParse

/-- How an input ends. -/
inductive Ending where
  /-- No bytes follow. -/
  | ended
  /-- The source fails. -/
  | failed (failure : SourceFailure)
  /-- The source claims more bytes than there was room for. -/
  | overclaimed (conduct : Conduct)
  deriving DecidableEq

/-- The bytes of an input and how it ends. -/
structure Content where
  bytes : List UInt8
  ending : Ending
  deriving DecidableEq

namespace Content

/-- The content that begins with `bytes`. -/
def prepend (bytes : List UInt8) (content : Content) : Content :=
  { content with bytes := bytes ++ content.bytes }

@[simp] theorem bytes_prepend (bytes : List UInt8) (content : Content) :
    (content.prepend bytes).bytes = bytes ++ content.bytes := rfl

@[simp] theorem ending_prepend (bytes : List UInt8) (content : Content) :
    (content.prepend bytes).ending = content.ending := rfl

@[simp] theorem prepend_nil (content : Content) : content.prepend [] = content := rfl

theorem prepend_prepend (first second : List UInt8) (content : Content) :
    (content.prepend second).prepend first = content.prepend (first ++ second) := by
  simp [prepend]

/-- An overclaiming source is dropped, and then the input just ends where it did so. -/
def settled (content : Content) : Content :=
  match content.ending with
  | .overclaimed _ => { content with ending := .ended }
  | _ => content

theorem settled_of_ending
    {content : Content} (h : ∀ conduct, content.ending ≠ .overclaimed conduct) :
    content.settled = content := by
  rw [settled]
  split
  · next conduct hending => exact absurd hending (h conduct)
  · rfl

@[simp] theorem bytes_settled (content : Content) : content.settled.bytes = content.bytes := by
  rw [settled]
  split <;> rfl

@[simp] theorem settled_settled (content : Content) :
    content.settled.settled = content.settled := by
  refine settled_of_ending ?_
  intro conduct
  obtain ⟨bytes, ending⟩ := content
  cases ending <;> simp [settled]

theorem ending_of_settled
    {content : Content} {conduct : Conduct} (h : content.settled.ending = .overclaimed conduct) :
    content.ending = .overclaimed conduct := by
  rw [settled] at h
  split at h
  · cases h
  · exact h

end Content

/-- Whether an answer with these bytes is the last one.  A supplier says so; from a reader no bytes
at all are taken as the end. -/
def Conduct.closes (conduct : Conduct) (bytes : List UInt8) (last : Bool) : Bool :=
  match conduct with
  | .supplier => last
  | .reader => bytes.isEmpty

namespace Script

/-- What a source with this script delivers to requests for `room` bytes at a time. -/
def content (conduct : Conduct) (room : Nat) : Script → Content
  | [] => ⟨[], .ended⟩
  | .deliver bytes last :: rest =>
    if conduct.closes bytes last then ⟨bytes, .ended⟩
    else (content conduct room rest).prepend bytes
  | .fail failure :: rest =>
    if conduct = .reader ∧ failure.kind = .interrupted then content conduct room rest
    else ⟨[], .failed failure⟩
  | .overclaim 0 :: rest => (content conduct room rest).prepend (List.replicate room 0)
  | .overclaim (_ + 1) :: _ => ⟨[], .overclaimed conduct⟩

end Script

/-- The content that an answer begins, when `rest` is what follows. -/
def Answer.begin (conduct : Conduct) (rest : Content) : Answer → Content
  | .filled bytes true => ⟨bytes, .ended⟩
  | .filled bytes false => rest.prepend bytes
  | .failed failure => ⟨[], .failed failure⟩
  | .overclaimed _ => ⟨[], .overclaimed conduct⟩

namespace Script

theorem supply_deliver_of_le
    {room : Nat} {bytes : List UInt8} (h : bytes.length ≤ room) (last : Bool) (rest : Script) :
    supply room (.deliver bytes last :: rest) = (.filled bytes last, rest) := by
  have hdrop : bytes.drop room = [] := List.drop_eq_nil_iff.2 h
  simp [supply, hdrop]

theorem supply_deliver_of_lt
    {room : Nat} {bytes : List UInt8} (h : room < bytes.length) (last : Bool) (rest : Script) :
    supply room (.deliver bytes last :: rest) =
      (.filled (bytes.take room) false, .deliver (bytes.drop room) last :: rest) := by
  have hdrop : bytes.drop room ≠ [] := by
    rw [ne_eq, List.drop_eq_nil_iff]
    omega
  simp only [supply]

theorem content_supply (room : Nat) (script : Script) :
    script.content .supplier room =
      (supply room script).1.begin .supplier ((supply room script).2.content .supplier room) := by
  cases script with
  | nil => rfl
  | cons step rest =>
      cases step with
      | fail failure => simp [content, supply, Answer.begin]
      | overclaim excess => cases excess <;> rfl
      | deliver bytes last =>
          by_cases h : bytes.length ≤ room
          · rw [supply_deliver_of_le h]
            cases last <;> rfl
          · rw [supply_deliver_of_lt (by omega)]
            cases last with
            | true => simp [content, Answer.begin, Conduct.closes, Content.prepend]
            | false =>
                simp only [content, Answer.begin, Conduct.closes, Bool.false_eq_true, if_false]
                rw [Content.prepend_prepend, List.take_append_drop]

/-- What a reader makes of an answer that a supplier would give. -/
theorem content_reader_of_supply
    {room : Nat} (hroom : 0 < room) {script : Script} {bytes : List UInt8} {last : Bool}
    (h : (supply room script).1 = .filled bytes last) :
    script.content .reader room =
      (Answer.filled bytes bytes.isEmpty).begin .reader
        ((supply room script).2.content .reader room) := by
  cases script with
  | nil =>
      cases h
      rfl
  | cons step rest =>
      cases step with
      | fail failure => cases h
      | overclaim excess =>
          cases excess with
          | succ excess => cases h
          | zero =>
              obtain ⟨n, rfl⟩ := Nat.exists_eq_succ_of_ne_zero (Nat.ne_of_gt hroom)
              cases h
              rfl
      | deliver given flag =>
          by_cases hle : given.length ≤ room
          · rw [supply_deliver_of_le hle] at h ⊢
            cases h
            cases bytes <;> rfl
          · rw [supply_deliver_of_lt (by omega)] at h ⊢
            cases h
            have hgiven : given.isEmpty = false := by
              cases given with
              | nil => simp at hle
              | cons b given => rfl
            have htake : (given.take room).isEmpty = false := by
              obtain ⟨n, rfl⟩ := Nat.exists_eq_succ_of_ne_zero (Nat.ne_of_gt hroom)
              cases given with
              | nil => simp at hgiven
              | cons b given => rfl
            have hdrop : (given.drop room).isEmpty = false := by
              rw [List.isEmpty_eq_false_iff, ne_eq, List.drop_eq_nil_iff]
              omega
            simp only [content, Conduct.closes, Answer.begin, hgiven, htake, hdrop,
              Bool.false_eq_true, if_false]
            rw [Content.prepend_prepend, List.take_append_drop]

/-- Interruptions aside, a reader differs from a supplier in what counts as its end only. -/
theorem content_read {room : Nat} (hroom : 0 < room) (script : Script) :
    script.content .reader room =
      (read room script).2.1.begin .reader ((read room script).2.2.content .reader room) := by
  fun_induction read room script with
  | case1 failure rest hkind later ih =>
      simp only [content, hkind, and_self, if_true]
      exact ih
  | case2 failure rest hkind =>
      simp [content, Answer.begin, hkind]
  | case3 script hfail given bytes last hgiven =>
      exact content_reader_of_supply hroom hgiven
  | case4 script hfail given hne =>
      cases script with
      | nil => exact (hne _ _ rfl).elim
      | cons step rest =>
          cases step with
          | fail failure => exact (hfail failure rest rfl).elim
          | overclaim excess =>
              cases excess with
              | zero => exact (hne _ _ rfl).elim
              | succ excess => rfl
          | deliver bytes last =>
              by_cases hle : bytes.length ≤ room
              · have hsupply := supply_deliver_of_le hle last rest
                exact (hne bytes last (by simp only [given, hsupply])).elim
              · have hsupply := supply_deliver_of_lt (by omega : room < bytes.length) last rest
                exact (hne (bytes.take room) false (by simp only [given, hsupply])).elim

end Script

namespace Source

/-- What a source delivers to requests for `room` bytes at a time. -/
def content (source : Source) (room : Nat) : Content :=
  source.script.content source.conduct room

@[simp] theorem conduct_pull (source : Source) (room : Nat) :
    (source.pull room).rest.conduct = source.conduct := by
  obtain ⟨conduct, script⟩ := source
  cases conduct <;> rfl

theorem content_pull {room : Nat} (hroom : 0 < room) (source : Source) :
    source.content room =
      (source.pull room).answer.begin source.conduct ((source.pull room).rest.content room) := by
  obtain ⟨conduct, script⟩ := source
  cases conduct with
  | supplier => exact Script.content_supply room script
  | reader => exact Script.content_read hroom script

end Source

/-- How an input ends after its last chunk. -/
def Chunk.ending (chunk : Chunk) : Ending :=
  match chunk.failure with
  | none => .ended
  | some failure => .failed failure

/-- What follows a chunk, given the source of the rest while there may be one. -/
def Chunk.following (chunk : Chunk) (config : Config) : Option Source → Content
  | none => ⟨[], chunk.ending⟩
  | some source => source.content config.room

namespace Source

theorem content_of_fill
    {config : Config} {empties : Nat} {source : Source} {chunk : Chunk} {rest : Option Source}
    (h : (source.fill config empties).outcome = .ok (chunk, rest)) :
    source.content config.room =
      (chunk.following config rest).prepend chunk.bytes.toList := by
  fun_induction fill config empties source with
  | case1 => simp at h
  | case2 empties source failure hanswer =>
      cases h
      rw [content_pull config.room_pos, hanswer]
      rfl
  | case3 empties source bytes hanswer =>
      cases h
      rw [content_pull config.room_pos, hanswer]
      simp [Answer.begin, Chunk.filled, Chunk.following, Chunk.ending, Content.prepend]
  | case4 empties source hanswer hlt later ih =>
      rw [content_pull config.room_pos, hanswer]
      exact ih h
  | case5 empties source b bytes hanswer =>
      cases h
      rw [content_pull config.room_pos, hanswer]
      rfl

/-- A pull ends in a fault only where the source overclaims next. -/
theorem content_of_fill_error
    {config : Config} {empties : Nat} {source : Source} {fault : Fault}
    (h : (source.fill config empties).outcome = .error fault) :
    fault = .overclaimed source.conduct ∧
      source.content config.room = ⟨[], .overclaimed source.conduct⟩ := by
  fun_induction fill config empties source with
  | case1 empties source claimed hanswer =>
      cases h
      rw [content_pull config.room_pos, hanswer]
      exact ⟨rfl, rfl⟩
  | case2 => simp at h
  | case3 => simp at h
  | case4 empties source hanswer hlt later ih =>
      rw [content_pull config.room_pos, hanswer]
      have hlater := ih h
      rw [conduct_pull] at hlater
      exact hlater
  | case5 => simp at h

theorem failure_of_fill
    {config : Config} {empties : Nat} {source : Source} {chunk : Chunk} {rest : Option Source}
    (h : (source.fill config empties).outcome = .ok (chunk, rest))
    (hfailure : chunk.failure ≠ none) :
    rest = none ∧ chunk.bytes.size = 0 := by
  fun_induction fill config empties source with
  | case1 => simp at h
  | case2 empties source failure hanswer =>
      cases h
      exact ⟨rfl, rfl⟩
  | case3 empties source bytes hanswer =>
      cases h
      exact absurd rfl hfailure
  | case4 empties source hanswer hlt later ih => exact ih h
  | case5 empties source b bytes hanswer =>
      cases h
      exact absurd rfl hfailure

end Source

end StreamParse
