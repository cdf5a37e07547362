import StreamParse.Proofs.Parser.Heritable
import StreamParse.Proofs.Session

/-!
# Parsing again is free

A parser that gave a result gives the same result from the same cursor at any later time, whatever
was read meanwhile: the same value with the same cursor after it, or the same failure.  The second
time no source is asked and nothing is logged.

This holds of all parsers of the library and of everything built from them.  A parser of one's own
may take part if it knows its input from reading it only.  What it does next is then decided by the
replies that it got so far, and the replies come again.
-/

namespace StreamParse

/-! ## Parsers of one's own -/

/-- What a parser may ask about its input. -/
inductive Query where
  | byte (cursor : Cursor)
  | rune (cursor : Cursor)
  | bytesUntil (start stop : Cursor)

/-- What it is told. -/
inductive Reply where
  | byte (result : Except Error (UInt8 × Cursor))
  | rune (result : Except Error (Char × Cursor))
  | bytes (bytes : Array UInt8)

def Query.reply : Query → Run Reply
  | .byte cursor => return .byte (← cursor.byte)
  | .rune cursor => return .rune (← cursor.rune)
  | .bytesUntil start stop => return .bytes (← start.bytesUntil stop)

/-- What to do after the replies so far: to ask something, or to stop with a value or a fault. -/
abbrev Procedure (ρ : Type) := List Reply → Query ⊕ Except Fault ρ

/-- A procedure that has got some replies comes to a result from a store on. -/
inductive Procedure.Runs {ρ : Type} (procedure : Procedure ρ) :
    List Reply → Store → Except Fault ρ × Store → Prop
  | stop {replies : List Reply} {store : Store} {outcome : Except Fault ρ} :
    procedure replies = .inr outcome → Runs procedure replies store (outcome, store)
  | fault {replies : List Reply} {store store' : Store} {query : Query} {fault : Fault} :
    procedure replies = .inl query → query.reply.run store = (.error fault, store') →
      Runs procedure replies store (.error fault, store')
  | ask {replies : List Reply} {store store' : Store} {query : Query} {reply : Reply}
      {result : Except Fault ρ × Store} :
    procedure replies = .inl query → query.reply.run store = (.ok reply, store') →
      Runs procedure (replies ++ [reply]) store' result → Runs procedure replies store result

/-- A run that follows a procedure: it knows the store from its queries only. -/
def Action.Asks {ρ : Type} (x : Run ρ) : Prop :=
  ∃ procedure : Procedure ρ, ∀ store, procedure.Runs [] store (x.run store)

/-- A parser that knows its input from its queries only. -/
def Parser.Asks {α : Type} (p : Parser α) : Prop :=
  ∀ entry, Action.Asks (p entry)

open Store

namespace Query

theorem replays_reply (query : Query) : Replays query.reply := by
  cases query with
  | byte cursor =>
      exact (Cursor.replays_read Reading.steady_bytes cursor).bind fun _ => .pure _
  | rune cursor =>
      exact (Cursor.replays_read Reading.steady_runes cursor).bind fun _ => .pure _
  | bytesUntil start stop => exact (Cursor.replays_bytesUntil start stop).bind fun _ => .pure _

end Query

namespace Procedure

variable {ρ : Type} {procedure : Procedure ρ} {replies : List Reply} {store store' : Store}

theorem Runs.unique
    {result result' : Except Fault ρ × Store} (h : procedure.Runs replies store result)
    (h' : procedure.Runs replies store result') : result = result' := by
  induction h with
  | stop hnext =>
      cases h' with
      | stop hnext' =>
          rw [hnext] at hnext'
          cases hnext'
          rfl
      | fault hnext' _ => simp [hnext] at hnext'
      | ask hnext' _ _ => simp [hnext] at hnext'
  | fault hnext hreply =>
      cases h' with
      | stop hnext' => simp [hnext] at hnext'
      | fault hnext' hreply' =>
          rw [hnext] at hnext'
          cases hnext'
          rw [hreply] at hreply'
          cases hreply'
          rfl
      | ask hnext' hreply' _ =>
          rw [hnext] at hnext'
          cases hnext'
          simp [hreply] at hreply'
  | ask hnext hreply _ ih =>
      cases h' with
      | stop hnext' => simp [hnext] at hnext'
      | fault hnext' hreply' =>
          rw [hnext] at hnext'
          cases hnext'
          simp [hreply] at hreply'
      | ask hnext' hreply' hrest =>
          rw [hnext] at hnext'
          cases hnext'
          rw [hreply] at hreply'
          cases hreply'
          exact ih hrest

/-- A procedure that came to a value comes to it again, since every reply comes again. -/
theorem Runs.again
    {value : ρ} {result : Except Fault ρ × Store} (h : procedure.Runs replies store result)
    (hvalue : result = (.ok value, store')) :
    store.Grown store' ∧
      ∀ ⦃later : Store⦄, store'.Grown later →
        ∃ reads, procedure.Runs replies later (.ok value, { later with reads }) := by
  induction h with
  | stop hnext =>
      cases hvalue
      exact ⟨Grown.refl store', fun later _ => ⟨later.reads, .stop hnext⟩⟩
  | fault => cases hvalue
  | @ask replies store store₁ query reply result hnext hreply _ ih =>
      obtain ⟨hgrown, hagain⟩ := query.replays_reply hreply
      obtain ⟨hgrown', hagain'⟩ := ih hvalue
      refine ⟨hgrown.trans hgrown', ?_⟩
      intro later hlater
      obtain ⟨reads, hreply'⟩ := hagain (hgrown'.trans hlater)
      have hsame : store'.Grown { later with reads } := hlater
      obtain ⟨reads', hrest⟩ := hagain' hsame
      exact ⟨reads', .ask hnext hreply' hrest⟩

end Procedure

theorem Action.asks_of_reply
    {ρ : Type} (query : Query) {conclude : Reply → Run ρ}
    (hconclude : ∀ reply, ∃ value, conclude reply = pure value) :
    Action.Asks (query.reply >>= conclude) := by
  choose value hvalue using hconclude
  refine ⟨fun
    | [] => .inl query
    | reply :: _ => .inr (.ok (value reply)), fun store => ?_⟩
  rw [Action.run_bind]
  rcases hrun : query.reply.run store with ⟨fault | reply, store'⟩
  · exact .fault rfl hrun
  · simp only [hvalue]
    exact .ask rfl hrun (.stop rfl)

/-- Runs that follow procedures are replayed. -/
theorem Action.Asks.replays {ρ : Type} {x : Run ρ} (h : Action.Asks x) : Replays x := by
  obtain ⟨procedure, hruns⟩ := h
  intro store value store' hrun
  obtain ⟨hgrown, hagain⟩ := (hruns store).again hrun
  refine ⟨hgrown, ?_⟩
  intro later hlater
  obtain ⟨reads, hruns'⟩ := hagain hlater
  exact ⟨reads, (hruns later).unique hruns'⟩

theorem Store.heritable_replays : Heritable Replays where
  pure := .pure
  fault _ := .fault _
  bind := .bind
  read hr := Cursor.replays_read hr
  traverse hr := Cursor.replays_traverse hr
  bytesUntil := Cursor.replays_bytesUntil

namespace Parser

variable {α : Type}

/-- Everything built from parsers of the library and from parsers that ask is replayed. -/
theorem Composed.replays {p : Parser α} (h : Composed Parser.Asks p) (entry : Cursor) :
    Replays (p entry) :=
  heritable_replays.composed (fun hasks entry => (hasks entry).replays) h entry

/-! ## Sessions -/

/-- Parsing again is free.  Whatever a parser gave from a cursor, a value with the cursor after it
or a failure, it gives again from that cursor at any later time: after any reads, and so after any
operations of a session, whichever inputs and cursors they worked on.  No source is asked and
nothing is logged for it; of all that a store holds only the record of reads goes on. -/
theorem replay_identical
    {p : Parser α} (hp : Composed Parser.Asks p) {store store' : Store} {entry : Cursor}
    {parsed : Parsed α} (hrun : (p entry).run store = (.ok parsed, store')) :
    (∀ later, store'.Reaches later →
      ∃ reads, (p entry).run later = (.ok parsed, { later with reads })) ∧
    ∀ session : Session, session.store = store' → session.registers.Known store' →
      ∀ (operations : List Operation) (later : Store),
        (session.run operations).2.store = later →
          ∃ reads, (p entry).run later = (.ok parsed, { later with reads }) := by
  obtain ⟨-, hagain⟩ := hp.replays entry hrun
  constructor
  · intro later hreaches
    exact hagain hreaches.grown
  · rintro session rfl hregisters operations later rfl
    obtain ⟨hreaches, -⟩ := Session.run_reaches hregisters operations
    exact hagain hreaches.grown

/-- Gives the next byte and takes nothing. -/
def peek : Parser UInt8 := fun entry => do
  match ← entry.byte with
  | .error error => return .error ⟨error, entry⟩
  | .ok (b, _) => return .ok (b, entry)

theorem asks_peek : Parser.Asks peek := by
  intro entry
  have hpeek : peek entry = do
      match ← (Query.byte entry).reply with
      | .byte (.ok (b, _)) => return .ok (b, entry)
      | .byte (.error error) => return .error ⟨error, entry⟩
      | _ => return .error ⟨.noMatch, entry⟩ := by
    rw [Query.reply, bind_assoc]
    refine bind_congr ?_
    rintro (error | ⟨b, next⟩)
    · rfl
    · rfl
  rw [hpeek]
  refine Action.asks_of_reply _ ?_
  intro reply
  split
  · exact ⟨_, rfl⟩
  · exact ⟨_, rfl⟩
  · exact ⟨_, rfl⟩

/-- Two runes in pieces, with a byte looked at before: after the whole input was read, to its end,
the same parse gives the same text and requests nothing. -/
theorem replay_identical_of_pieces :
    let p : Parser String := captureText (sequence peek (literal "éa") fun _ _ => .ok ())
    let source : Source :=
      ⟨.supplier, [.deliver [0xC3] false, .deliver [0xA9, 0x61, 0x62] false]⟩
    let start := (Session.start ⟨[]⟩ [("s", .streaming source default)])
    let entry : Cursor := ⟨some ⟨0, ⟨0, 0⟩⟩, .start⟩
    let first := (p entry).run start.store
    let session : Session := { start with store := first.2 }
    let later := (session.run [.bytes "s" "s" none, .rune "s" "t"]).2.store
    first.1 = .ok (.ok ("éa", ⟨some ⟨0, ⟨2, 2⟩⟩, ⟨3, 1, 3⟩⟩)) ∧
      first.2.journal.requests = 2 ∧ later.journal.requests = 3 ∧
        ∃ reads, (p entry).run later = (first.1, { later with reads }) := by
  intro p source start entry first session later
  have hfirst : first.1 = .ok (.ok ("éa", ⟨some ⟨0, ⟨2, 2⟩⟩, ⟨3, 1, 3⟩⟩)) := by decide +kernel
  have hregisters : session.registers.Known session.store := by
    intro named hmem
    obtain rfl : named = ("s", entry) := List.mem_singleton.1 hmem
    exact Or.inr (Or.inl ⟨0, by decide +kernel, rfl⟩)
  have hp : Composed Parser.Asks p :=
    .captureText (.sequence _ (.custom asks_peek) (.literal "éa"))
  refine ⟨hfirst, by decide +kernel, by decide +kernel, ?_⟩
  have hrun : (p entry).run start.store = (.ok _, first.2) := Prod.ext hfirst rfl
  rw [hfirst]
  exact (replay_identical hp hrun).2 session rfl hregisters _ _ rfl

end Parser
end StreamParse
