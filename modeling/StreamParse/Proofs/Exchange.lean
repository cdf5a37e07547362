import StreamParse.Proofs.Reader

/-!
# What sources answer

Sources are scripts, so it has to be said which answers they can give.  They are all those that
their conduct allows, one by one and in any order.  An answer never holds more bytes than there was
room for, unless it is the claim to more of them that ends a run; and a reader has no other sign of
its end than an answer without bytes, and is never heard to be interrupted.

A run that comes to an end has made finitely many requests.  So by whatever rule a source answers,
and whether or not it would ever come to an end itself, there is a script for the run.
-/

namespace StreamParse

/-- A request with its answer, and how often the source was asked until it gave one. -/
structure Exchange where
  room : Nat
  attempts : Nat
  answer : Answer

/-- The answer says no more than a request for `room` bytes lets it say. -/
def Answer.Fits (room : Nat) : Answer → Prop
  | .filled bytes _ => bytes.length ≤ room
  | .failed _ => True
  | .overclaimed claimed => room < claimed

/-- The answer is one that a reader can give. -/
def Answer.IsRead : Answer → Prop
  | .filled bytes exhausted => exhausted = bytes.isEmpty
  | .failed failure => failure.kind ≠ .interrupted
  | .overclaimed _ => True

/-- What a source of some conduct can have been asked and have answered. -/
def Conduct.Allows : Conduct → Exchange → Prop
  | .supplier, exchange => exchange.attempts = 1 ∧ exchange.answer.Fits exchange.room
  | .reader, exchange =>
    0 < exchange.attempts ∧ exchange.answer.Fits exchange.room ∧ exchange.answer.IsRead

def Answer.step (room : Nat) : Answer → Step
  | .filled bytes exhausted => .deliver bytes exhausted
  | .failed failure => .fail failure
  | .overclaimed claimed => .overclaim (claimed - room)

/-- The steps that give an answer after as many attempts. -/
def Exchange.script (exchange : Exchange) : Script :=
  List.replicate (exchange.attempts - 1) (.fail ⟨.interrupted, ""⟩) ++
    [exchange.answer.step exchange.room]

/-- Requests of some sizes in turn, with their answers. -/
def Source.exchanges (source : Source) (rooms : List Nat) : List Exchange :=
  List.zipWith (fun room pull => ⟨room, pull.attempts, pull.answer⟩) rooms
    (source.pullAll rooms).1

theorem Source.exchanges_cons (source : Source) (room : Nat) (rooms : List Nat) :
    source.exchanges (room :: rooms) =
      ⟨room, (source.pull room).attempts, (source.pull room).answer⟩ ::
        (source.pull room).rest.exchanges rooms := rfl

/-! ## No other answers -/

namespace Script

theorem fits_supply (room : Nat) (script : Script) : (script.supply room).1.Fits room := by
  cases script with
  | nil => exact Nat.zero_le room
  | cons step rest =>
      cases step with
      | fail failure => trivial
      | overclaim excess =>
          cases excess with
          | zero => simp [supply, Answer.Fits]
          | succ excess =>
              simp only [supply, Answer.Fits]
              omega
      | deliver bytes last =>
          by_cases hle : bytes.length ≤ room
          · rw [supply_deliver_of_le hle]
            exact hle
          · rw [supply_deliver_of_lt (by omega)]
            exact List.length_take_le room bytes

theorem exists_rest_of_supply_failed
    {room : Nat} {script : Script} {failure : SourceFailure}
    (h : (script.supply room).1 = .failed failure) : ∃ rest, script = .fail failure :: rest := by
  unfold supply at h
  split at h
  · cases h
  · split at h
    · cases h
    · cases h
  · cases h
    exact ⟨_, rfl⟩
  · cases h
  · cases h

theorem allows_read (room : Nat) (script : Script) :
    Conduct.reader.Allows ⟨room, (script.read room).1, (script.read room).2.1⟩ := by
  fun_induction read room script with
  | case1 failure rest hkind later ih => exact ⟨Nat.succ_pos _, ih.2⟩
  | case2 failure rest hkind => exact ⟨Nat.one_pos, trivial, hkind⟩
  | case3 script hfail given bytes last hgiven =>
      have hfits := fits_supply room script
      rw [hgiven] at hfits
      exact ⟨Nat.one_pos, hfits, rfl⟩
  | case4 script hfail given hne =>
      refine ⟨Nat.one_pos, fits_supply room script, ?_⟩
      cases hanswer : given.1 with
      | filled bytes last => exact absurd hanswer (hne bytes last)
      | failed failure =>
          obtain ⟨rest, hscript⟩ := exists_rest_of_supply_failed hanswer
          exact absurd hscript (hfail failure rest)
      | overclaimed claimed => trivial

end Script

theorem Source.allows_pull (source : Source) (room : Nat) :
    source.conduct.Allows ⟨room, (source.pull room).attempts, (source.pull room).answer⟩ := by
  obtain ⟨conduct, script⟩ := source
  cases conduct with
  | supplier => exact ⟨rfl, script.fits_supply room⟩
  | reader => exact script.allows_read room

/-! ## All these answers -/

namespace Script

variable {room : Nat} {answer : Answer}

theorem supply_step (h : answer.Fits room) (rest : Script) :
    supply room (answer.step room :: rest) = (answer, rest) := by
  cases answer with
  | filled bytes exhausted => exact supply_deliver_of_le h exhausted rest
  | failed failure => rfl
  | overclaimed claimed =>
      obtain ⟨excess, rfl⟩ := Nat.exists_eq_add_of_lt h
      have hexcess : room + excess + 1 - room = excess + 1 := by omega
      simp only [Answer.step, hexcess, supply]

theorem read_step (h : answer.Fits room) (hread : answer.IsRead) (rest : Script) :
    read room (answer.step room :: rest) = (1, answer, rest) := by
  cases answer with
  | filled bytes exhausted =>
      obtain rfl : exhausted = bytes.isEmpty := hread
      exact read_deliver_of_le h _ rest
  | failed failure => simp only [Answer.step, read, if_neg hread]
  | overclaimed claimed =>
      have hsupply := supply_step h rest
      rw [Answer.step] at hsupply ⊢
      simp only [read, hsupply]

theorem read_interrupted (room count : Nat) (script : Script) :
    read room (List.replicate count (.fail ⟨.interrupted, ""⟩) ++ script) =
      ((script.read room).1 + count, (script.read room).2) := by
  induction count with
  | zero => rfl
  | succ count ih =>
      rw [List.replicate_succ, List.cons_append, read, if_pos rfl, ih]
      rfl

end Script

theorem Source.pull_script
    {conduct : Conduct} {exchange : Exchange} (h : conduct.Allows exchange) (rest : Script) :
    (Source.mk conduct (exchange.script ++ rest)).pull exchange.room =
      ⟨exchange.attempts, exchange.answer, ⟨conduct, rest⟩⟩ := by
  obtain ⟨room, attempts, answer⟩ := exchange
  cases conduct with
  | supplier =>
      obtain ⟨rfl, hfits⟩ : attempts = 1 ∧ answer.Fits room := h
      simp only [pull, Exchange.script, Nat.sub_self, List.replicate_zero, List.nil_append,
        List.cons_append, Script.supply_step hfits]
  | reader =>
      obtain ⟨hattempts, hfits, hread⟩ : 0 < attempts ∧ answer.Fits room ∧ answer.IsRead := h
      have hcount : 1 + (attempts - 1) = attempts := by omega
      simp only [pull, Exchange.script, List.append_assoc, List.cons_append, List.nil_append,
        Script.read_interrupted, Script.read_step hfits hread, hcount]

/-- The exchanges of sources are those that their conduct allows, whichever rooms come to be asked
for.  So scripts are no restriction to what comes of finitely many requests. -/
theorem Conduct.exists_exchanges_iff (conduct : Conduct) (exchanges : List Exchange) :
    (∃ script, (Source.mk conduct script).exchanges (exchanges.map (·.room)) = exchanges) ↔
      ∀ exchange ∈ exchanges, conduct.Allows exchange := by
  induction exchanges with
  | nil => simp [Source.exchanges]
  | cons exchange exchanges ih =>
      rw [List.forall_mem_cons, ← ih, List.map_cons]
      constructor
      · rintro ⟨script, h⟩
        rw [Source.exchanges_cons, List.cons.injEq] at h
        obtain ⟨hfirst, hrest⟩ := h
        have hallows := Source.allows_pull ⟨conduct, script⟩ exchange.room
        have hconduct := Source.conduct_pull ⟨conduct, script⟩ exchange.room
        rw [hfirst] at hallows
        generalize ((Source.mk conduct script).pull exchange.room).rest = left at hrest hconduct
        obtain ⟨_, script'⟩ := left
        obtain rfl : _ = conduct := hconduct
        exact ⟨hallows, script', hrest⟩
      · rintro ⟨hallows, script, hrest⟩
        refine ⟨exchange.script ++ script, ?_⟩
        rw [Source.exchanges_cons, Source.pull_script hallows, hrest]

end StreamParse
