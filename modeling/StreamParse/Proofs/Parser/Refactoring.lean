import StreamParse.Proofs.Parser.Replay

/-!
# Grammars can be rearranged

A parser that is common to two alternatives may be parsed before the choice, and both choices and
sequences may be grouped in either way.  The rearranged parser has the same outcome from every
cursor, be it a value, a failure or a fault, asks the sources for the same and logs the same.

For regrouping this is so because failures go back to the entry in either case.  To parse the
common part before the choice saves parsing it again, and that is free: the second time it finds
what it found the first time, although the first alternative may have read on meanwhile.
-/

namespace StreamParse

open Store

/-! ## The record of reads is never read -/

/-- Whatever reads were made before, the run has the same outcome and does the same to the chains
and to the journal. -/
def Store.Oblivious {ρ : Type} (x : Run ρ) : Prop :=
  ∀ (store : Store) (reads : Array Attempt), ∃ reads',
    x.run { store with reads } = ((x.run store).1, { (x.run store).2 with reads := reads' })

namespace Store.Oblivious

variable {α β ρ σ : Type}

theorem pure (value : ρ) : Oblivious (pure value : Run ρ) :=
  fun _ reads => ⟨reads, rfl⟩

theorem fault (fault : Fault) : Oblivious (.fault fault : Run ρ) :=
  fun _ reads => ⟨reads, rfl⟩

theorem bind {x : Run ρ} {f : ρ → Run σ} (hx : Oblivious x) (hf : ∀ value, Oblivious (f value)) :
    Oblivious (x >>= f) := by
  intro store reads
  obtain ⟨reads', hrun⟩ := hx store reads
  rw [Action.run_bind, Action.run_bind, hrun]
  rcases x.run store with ⟨fault | value, store'⟩
  · exact ⟨reads', rfl⟩
  · exact hf value store' reads'

theorem onChain (i : Nat) (x : Action Feed α) : Oblivious (onChain i x) := by
  intro store reads
  refine ⟨reads, ?_⟩
  simp only [Store.onChain]
  cases store.chains[i]? with
  | none => rfl
  | some chain => rfl

theorem read (r : Reading α) (cursor : Cursor) : Oblivious (cursor.read r) := by
  have hunit : Oblivious (cursor.unit r) := by
    rw [Cursor.unit]
    split
    · apply fault
    · refine (onChain _ _).bind ?_
      rintro (halt | ⟨unit, place⟩)
      · apply pure
      · apply pure
  intro store reads
  obtain ⟨reads', hrun⟩ := hunit store reads
  rw [Cursor.run_read, Cursor.run_read, hrun]
  exact ⟨_, rfl⟩

theorem traverse (r : Reading α) (rule : TraversalRule α β) (gathered : β) (cursor : Cursor) :
    Oblivious ⟨Cursor.traverse r rule gathered cursor⟩ := by
  intro store reads
  dsimp only
  fun_induction Cursor.traverse r rule gathered cursor store generalizing reads with
  | case1 gathered cursor store hwants fault store' hread =>
      obtain ⟨reads', hrun⟩ := read r cursor store reads
      rw [hread] at hrun
      rw [Cursor.traverse_eq, if_pos hwants, hrun]
      exact ⟨reads', rfl⟩
  | case2 gathered cursor store hwants error store' hread =>
      obtain ⟨reads', hrun⟩ := read r cursor store reads
      rw [hread] at hrun
      rw [Cursor.traverse_eq, if_pos hwants, hrun]
      exact ⟨reads', rfl⟩
  | case3 gathered cursor store hwants unit next store' hread hlt haccepts ih =>
      obtain ⟨reads', hrun⟩ := read r cursor store reads
      rw [hread] at hrun
      rw [Cursor.traverse_eq, if_pos hwants, hrun]
      simp only [if_pos haccepts]
      exact ih reads'
  | case4 gathered cursor store hwants unit next store' hread hlt haccepts =>
      obtain ⟨reads', hrun⟩ := read r cursor store reads
      rw [hread] at hrun
      rw [Cursor.traverse_eq, if_pos hwants, hrun]
      simp only [if_neg haccepts]
      exact ⟨reads', rfl⟩
  | case5 gathered cursor store hwants =>
      rw [Cursor.traverse_eq, if_neg hwants]
      exact ⟨reads, rfl⟩

theorem bytesUntil (start stop : Cursor) : Oblivious (start.bytesUntil stop) := by
  rw [Cursor.bytesUntil]
  split
  · apply fault
  · split
    · apply fault
    · apply fault
    · next first last _ _ =>
      split
      · intro store reads
        refine ⟨reads, ?_⟩
        dsimp only
        cases store.chains[first.chain]? with
        | none => rfl
        | some chain =>
            dsimp only
            split
            · rfl
            · split
              · rfl
              · rfl
      · apply fault

end Store.Oblivious

theorem Store.heritable_oblivious : Heritable Oblivious where
  pure := .pure
  fault _ := .fault _
  bind := .bind
  read _ := .read _
  traverse _ := .traverse _
  bytesUntil := .bytesUntil

theorem Query.oblivious_reply (query : Query) : Oblivious query.reply := by
  cases query with
  | byte cursor => exact (Oblivious.read .bytes cursor).bind fun _ => .pure _
  | rune cursor => exact (Oblivious.read .runes cursor).bind fun _ => .pure _
  | bytesUntil start stop => exact (Oblivious.bytesUntil start stop).bind fun _ => .pure _

/-- A procedure gets the same replies whatever was read before. -/
theorem Procedure.Runs.oblivious
    {ρ : Type} {procedure : Procedure ρ} {replies : List Reply} {store : Store}
    {result : Except Fault ρ × Store} (h : procedure.Runs replies store result)
    (reads : Array Attempt) :
    ∃ reads', procedure.Runs replies { store with reads }
      (result.1, { result.2 with reads := reads' }) := by
  induction h generalizing reads with
  | stop hnext => exact ⟨reads, .stop hnext⟩
  | @fault replies store store' query fault hnext hreply =>
      obtain ⟨reads', hrun⟩ := query.oblivious_reply store reads
      rw [hreply] at hrun
      exact ⟨reads', .fault hnext hrun⟩
  | @ask replies store store' query reply result hnext hreply _ ih =>
      obtain ⟨reads', hrun⟩ := query.oblivious_reply store reads
      rw [hreply] at hrun
      obtain ⟨reads'', hrest⟩ := ih reads'
      exact ⟨reads'', .ask hnext hrun hrest⟩

theorem Action.Asks.oblivious {ρ : Type} {x : Run ρ} (h : Action.Asks x) : Oblivious x := by
  obtain ⟨procedure, hruns⟩ := h
  intro store reads
  obtain ⟨reads', hrun⟩ := (hruns store).oblivious reads
  exact ⟨reads', (hruns _).unique hrun⟩

/-- The two runs have the same outcome and leave the same chains and the same journal: they ask the
sources for the same and log the same.  What they read, and how often, may differ. -/
structure Store.Agree {ρ : Type} (store : Store) (x y : Run ρ) : Prop where
  outcome : (x.run store).1 = (y.run store).1
  chains : (x.run store).2.chains = (y.run store).2.chains
  journal : (x.run store).2.journal = (y.run store).2.journal

theorem Store.Agree.of_run_eq
    {ρ : Type} {store store' : Store} {x y : Run ρ} {outcome : Except Fault ρ}
    (hy : y.run store = (outcome, store')) {reads : Array Attempt}
    (hx : x.run store = (outcome, { store' with reads })) : store.Agree x y := by
  constructor
  · rw [hx, hy]
  · rw [hx, hy]
  · rw [hx, hy]

namespace Parser

variable {α β γ : Type}

/-! ## One parser after the other, and one instead of the other -/

section

variable {p : Parser α} {entry cursor : Cursor} {store store' : Store} {fault : Fault}
  {failure : Failure}

theorem run_bind_of_fault (next : α → Parser β)
    (h : (p entry).run store = (.error fault, store')) :
    (bind p next entry).run store = (.error fault, store') := by
  rw [bind, Action.run_bind, h]

theorem run_bind_of_failure (next : α → Parser β)
    (h : (p entry).run store = (.ok (.error failure), store')) :
    (bind p next entry).run store = (.ok (.error (failure.rewind entry)), store') := by
  rw [bind, Action.run_bind, h]
  rfl

theorem run_bind_of_success (next : α → Parser β) {a : α}
    (h : (p entry).run store = (.ok (.ok (a, cursor)), store')) :
    (bind p next entry).run store =
      (((next a cursor).run store').1.map (·.rewind entry), ((next a cursor).run store').2) := by
  rw [bind, Action.run_bind, h]
  dsimp only
  rw [Action.run_bind]
  rcases (next a cursor).run store' with ⟨fault | parsed, store''⟩
  · rfl
  · rfl

theorem run_or_of_fault (q : Parser α) (h : (p entry).run store = (.error fault, store')) :
    (or p q entry).run store = (.error fault, store') := by
  rw [or, Action.run_bind, h]

theorem run_or_of_success (q : Parser α) {success : α × Cursor}
    (h : (p entry).run store = (.ok (.ok success), store')) :
    (or p q entry).run store = (.ok (.ok success), store') := by
  rw [or, Action.run_bind, h]
  rfl

theorem run_or_of_hard (q : Parser α) (h : (p entry).run store = (.ok (.error failure), store'))
    (hhard : ¬ failure.error.fallsThrough = true) :
    (or p q entry).run store = (.ok (.error (failure.rewind entry)), store') := by
  rw [or, Action.run_bind, h]
  dsimp only
  rw [if_neg hhard]
  rfl

theorem run_or_of_soft (q : Parser α) (h : (p entry).run store = (.ok (.error failure), store'))
    (hsoft : failure.error.fallsThrough = true) :
    (or p q entry).run store =
      (((q entry).run store').1.map (·.rewind entry), ((q entry).run store').2) := by
  rw [or, Action.run_bind, h]
  dsimp only
  rw [if_pos hsoft, Action.run_bind]
  rcases (q entry).run store' with ⟨fault | parsed, store''⟩
  · rfl
  · rfl

end

theorem map_rewind_map_rewind (outcome : Except Fault (Parsed α)) (first second : Cursor) :
    (outcome.map (·.rewind first)).map (·.rewind second) = outcome.map (·.rewind second) := by
  rcases outcome with fault | failure | success
  · rfl
  · rfl
  · rfl

/-! ## Regrouping -/

/-- Of three alternatives, the first two may be grouped or the last two. -/
theorem or_or (p q r : Parser α) : or (or p q) r = or p (or q r) := by
  funext entry
  ext1 store
  rcases hp : (p entry).run store with ⟨fault | failure | success, store₁⟩
  · rw [run_or_of_fault r (run_or_of_fault q hp), run_or_of_fault (or q r) hp]
  · by_cases hsoft : failure.error.fallsThrough
    · have hor := run_or_of_soft q hp hsoft
      rw [run_or_of_soft (or q r) hp hsoft]
      rcases hq : (q entry).run store₁ with ⟨fault | failure' | success, store₂⟩
      · rw [hq] at hor
        rw [run_or_of_fault r hor, run_or_of_fault r hq]
        rfl
      · rw [hq] at hor
        by_cases hsoft' : failure'.error.fallsThrough
        · rw [run_or_of_soft r hor hsoft', run_or_of_soft r hq hsoft', map_rewind_map_rewind]
        · rw [run_or_of_hard r hor hsoft', run_or_of_hard r hq hsoft']
          rfl
      · rw [hq] at hor
        rw [run_or_of_success r hor, run_or_of_success r hq]
        rfl
    · rw [run_or_of_hard r (run_or_of_hard q hp hsoft) hsoft, run_or_of_hard (or q r) hp hsoft]
      rfl
  · rw [run_or_of_success r (run_or_of_success q hp), run_or_of_success (or q r) hp]

/-- Of three parsers one after the other, the first two may be grouped or the last two. -/
theorem bind_bind (p : Parser α) (f : α → Parser β) (g : β → Parser γ) :
    bind (bind p f) g = bind p fun a => bind (f a) g := by
  funext entry
  ext1 store
  rcases hp : (p entry).run store with ⟨fault | failure | ⟨a, cursor⟩, store₁⟩
  · rw [run_bind_of_fault g (run_bind_of_fault f hp), run_bind_of_fault _ hp]
  · rw [run_bind_of_failure g (run_bind_of_failure f hp), run_bind_of_failure _ hp]
    rfl
  · have hbind := run_bind_of_success f hp
    rw [run_bind_of_success _ hp]
    rcases hf : (f a cursor).run store₁ with ⟨fault | failure | ⟨b, cursor'⟩, store₂⟩
    · rw [hf] at hbind
      rw [run_bind_of_fault g hbind, run_bind_of_fault g hf]
      rfl
    · rw [hf] at hbind
      rw [run_bind_of_failure g hbind, run_bind_of_failure g hf]
      rfl
    · rw [hf] at hbind
      rw [run_bind_of_success g hbind, run_bind_of_success g hf, map_rewind_map_rewind]

/-! ## Left factoring -/

/-- What two alternatives have in common may be parsed before the choice.  Where it is parsed again
for the second alternative, it finds what it found before. -/
theorem agree_leftFactored
    {p : Parser α} {f g : α → Parser β} {entry : Cursor} (hp : Replays (p entry))
    (hf : ∀ a cursor, Replays (f a cursor)) (hg : ∀ a cursor, Oblivious (g a cursor))
    (store : Store) :
    store.Agree (or (bind p f) (bind p g) entry) (bind p (fun a => or (f a) (g a)) entry) := by
  rcases hcommon : (p entry).run store with ⟨fault | failure | ⟨a, cursor⟩, store₁⟩
  · exact .of_run_eq (run_bind_of_fault _ hcommon)
      (run_or_of_fault _ (run_bind_of_fault f hcommon))
  · have hfirst := run_bind_of_failure f hcommon
    have hfactored := run_bind_of_failure (fun a => or (f a) (g a)) hcommon
    by_cases hsoft : failure.error.fallsThrough
    · -- The second alternative fails as the first did.
      obtain ⟨reads, hagain⟩ := (hp hcommon).2 (Grown.refl store₁)
      have hor := run_or_of_soft (bind p g) hfirst hsoft
      rw [run_bind_of_failure g hagain] at hor
      exact .of_run_eq hfactored hor
    · have hor := run_or_of_hard (bind p g) hfirst hsoft
      exact .of_run_eq hfactored hor
  · have hfirst := run_bind_of_success f hcommon
    have hfactored := run_bind_of_success (fun a => or (f a) (g a)) hcommon
    rcases halternative : (f a cursor).run store₁ with ⟨fault | failure | success, store₂⟩
    · rw [halternative] at hfirst
      rw [run_or_of_fault _ halternative] at hfactored
      exact .of_run_eq hfactored (run_or_of_fault _ hfirst)
    · rw [halternative] at hfirst
      by_cases hsoft : failure.error.fallsThrough
      · -- The common part was found in a store that has grown since.
        obtain ⟨reads, hagain⟩ := (hp hcommon).2 (hf a cursor halternative).1
        obtain ⟨reads', hsecond⟩ := hg a cursor store₂ reads
        have hor := run_or_of_soft (bind p g) hfirst hsoft
        rw [run_bind_of_success g hagain, hsecond, map_rewind_map_rewind] at hor
        rw [run_or_of_soft _ halternative hsoft, map_rewind_map_rewind] at hfactored
        exact .of_run_eq hfactored hor
      · have hor := run_or_of_hard (bind p g) hfirst hsoft
        rw [run_or_of_hard _ halternative hsoft] at hfactored
        exact .of_run_eq hfactored hor
    · rw [halternative] at hfirst
      rw [run_or_of_success _ halternative] at hfactored
      exact .of_run_eq hfactored (run_or_of_success _ hfirst)

/-- Rearranging a grammar changes nothing.  To parse what two alternatives have in common before
the choice gives the same outcome from every cursor in every store, a value with the cursor after
it, a failure with its cursor or a fault, and leaves the same chains and the same journal, so the
sources are asked for the same.  This holds of all parsers of the library, of everything built from
them, and with others among them that know their input from reading it only, wherever these fail.
Regrouping alternatives and regrouping parsers one after the other gives the same parser. -/
theorem outcome_eq_of_refactored :
    (∀ {α β : Type} {p : Parser α} {f g : α → Parser β}, Composed Asks p →
      (∀ a, Composed Asks (f a)) → (∀ a, Composed Asks (g a)) → ∀ (entry : Cursor) (store : Store),
        store.Agree (or (bind p f) (bind p g) entry) (bind p (fun a => or (f a) (g a)) entry)) ∧
    (∀ {α : Type} (p q r : Parser α), or (or p q) r = or p (or q r)) ∧
    ∀ {α β γ : Type} (p : Parser α) (f : α → Parser β) (g : β → Parser γ),
      bind (bind p f) g = bind p fun a => bind (f a) g := by
  refine ⟨?_, or_or, bind_bind⟩
  intro α β p f g hp hf hg entry store
  apply agree_leftFactored
  · exact hp.replays entry
  · exact fun a cursor => (hf a).replays cursor
  · exact fun a cursor => heritable_oblivious.composed (fun hasks entry => (hasks entry).oblivious)
      (hg a) cursor

/-- The common part lies across two pieces, and the first alternative has read on into the third
one when it falls through.  Parsed before the choice or in both alternatives, that takes three
requests. -/
theorem outcome_eq_of_refactored_of_pieces :
    let p : Parser Unit := sequence peek (literal "é") fun _ _ => .ok ()
    let f (_ : Unit) : Parser Unit := literal "ab"
    let g (_ : Unit) : Parser Unit := literal "a"
    let source : Source :=
      ⟨.supplier, [.deliver [0xC3] false, .deliver [0xA9] false, .deliver [0x61, 0x63] false]⟩
    let start := (Session.start ⟨[]⟩ [("s", .streaming source default)])
    let entry : Cursor := ⟨some ⟨0, ⟨0, 0⟩⟩, .start⟩
    let twice := (or (bind p f) (bind p g) entry).run start.store
    let once := (bind p (fun a => or (f a) (g a)) entry).run start.store
    twice.1 = .ok (.ok ((), ⟨some ⟨0, ⟨3, 1⟩⟩, ⟨3, 1, 3⟩⟩)) ∧ twice.2.journal.requests = 3 ∧
      twice.2.reads.size = 7 ∧ once.2.reads.size = 5 ∧
        start.store.Agree (or (bind p f) (bind p g) entry)
          (bind p (fun a => or (f a) (g a)) entry) := by
  intro p f g source start entry twice once
  have hp : Composed Asks p := .sequence _ (.custom asks_peek) (.literal "é")
  exact ⟨by decide +kernel, by decide +kernel, by decide +kernel, by decide +kernel,
    outcome_eq_of_refactored.1 hp (fun _ => .literal "ab") (fun _ => .literal "a") entry
      start.store⟩

end Parser
end StreamParse
