import StreamParse.Proofs.Cursor.Traversal
import StreamParse.Cursor.Span

/-!
# What reading reaches

Everything a session does comes down to single reads, each of them from a cursor that was there at
the start of an input or that an earlier read led to.  Whatever such reads preserve therefore holds
of all sessions.
-/

namespace StreamParse

namespace Store

/-- The cursors that are known in a store: those at the start of its inputs, and those that reads
led to.  The cursor without input is known everywhere. -/
def Known (store : Store) (cursor : Cursor) : Prop :=
  cursor = default ∨ (∃ i < store.chains.size, cursor = ⟨some ⟨i, ⟨0, 0⟩⟩, .start⟩) ∨
    ∃ attempt ∈ store.reads, ∃ code, attempt.outcome = .ok (.ok (code, cursor))

/-- Single reads from known cursors lead from one store to the other. -/
inductive Reaches (store : Store) : Store → Prop
  | refl : Reaches store store
  | byte {store' : Store} {cursor : Cursor} :
    Reaches store store' → store'.Known cursor → Reaches store (cursor.byte.run store').2
  | rune {store' : Store} {cursor : Cursor} :
    Reaches store store' → store'.Known cursor → Reaches store (cursor.rune.run store').2

variable {store store' store'' : Store}

theorem Reaches.trans (h : store.Reaches store') (h' : store'.Reaches store'') :
    store.Reaches store'' := by
  induction h' with
  | refl => exact h
  | byte _ hcursor ih => exact .byte ih hcursor
  | rune _ hcursor ih => exact .rune ih hcursor

/-! ## Single reads -/

section

variable {α : Type} (r : Reading α) (cursor : Cursor)

@[simp] theorem size_chains_onChain {i : Nat} (x : Action Feed α) (store : Store) :
    ((onChain i x).run store).2.chains.size = store.chains.size := by
  simp only [onChain]
  split
  · rfl
  · simp

@[simp] theorem reads_onChain {i : Nat} (x : Action Feed α) (store : Store) :
    ((onChain i x).run store).2.reads = store.reads := by
  simp only [onChain]
  split <;> rfl

theorem unit_frame (store : Store) :
    ((cursor.unit r).run store).2.chains.size = store.chains.size ∧
      ((cursor.unit r).run store).2.reads = store.reads := by
  obtain ⟨anchor, position⟩ := cursor
  cases anchor with
  | none => exact ⟨rfl, rfl⟩
  | some anchor =>
      have hsize := size_chains_onChain (i := anchor.chain) (r.read anchor.place) store
      have hreads := reads_onChain (i := anchor.chain) (r.read anchor.place) store
      simp only [Cursor.unit, Action.run_bind]
      rcases hrun : (onChain anchor.chain (r.read anchor.place)).run store with
        ⟨fault | halt | ⟨unit, place⟩, store'⟩
      · simpa [hrun] using And.intro hsize hreads
      · simpa [hrun] using And.intro hsize hreads
      · simpa [hrun] using And.intro hsize hreads

theorem size_chains_read (store : Store) :
    ((cursor.read r).run store).2.chains.size = store.chains.size :=
  (unit_frame r cursor store).1

/-- A read is added to the record, with the cursor that it led to. -/
theorem reads_read (store : Store) :
    ((cursor.read r).run store).2.reads = store.reads.push
      ⟨r.grain, cursor,
        ((cursor.read r).run store).1.map (·.map fun (unit, next) => (r.code unit, next))⟩ := by
  simp only [Cursor.read, record, (unit_frame r cursor store).2]

theorem Known.read {cursor' : Cursor} (h : store.Known cursor') :
    ((cursor.read r).run store).2.Known cursor' := by
  rcases h with hdefault | ⟨i, hi, hstart⟩ | ⟨attempt, hmem, houtcome⟩
  · exact Or.inl hdefault
  · exact Or.inr (Or.inl ⟨i, by rwa [size_chains_read], hstart⟩)
  · refine Or.inr (Or.inr ⟨attempt, ?_, houtcome⟩)
    rw [reads_read]
    exact Array.mem_push_of_mem _ hmem

variable {r cursor}

theorem known_of_read
    {unit : α} {next : Cursor}
    (h : ((cursor.read r).run store).1 = .ok (.ok (unit, next))) :
    ((cursor.read r).run store).2.Known next := by
  have hreads := reads_read r cursor store
  rw [h] at hreads
  refine Or.inr (Or.inr ⟨⟨r.grain, cursor, .ok (.ok (r.code unit, next))⟩, ?_, r.code unit, rfl⟩)
  rw [hreads]
  exact Array.mem_push_self

end

/-- A read makes at most the cursor known that it leads to. -/
theorem known_or_next_of_read
    {α : Type} {r : Reading α} {cursor cursor' : Cursor}
    (h : ((cursor.read r).run store).2.Known cursor') :
    store.Known cursor' ∨ ∃ unit, ((cursor.read r).run store).1 = .ok (.ok (unit, cursor')) := by
  rcases h with hdefault | ⟨i, hi, hstart⟩ | ⟨attempt, hmem, code, houtcome⟩
  · exact Or.inl (Or.inl hdefault)
  · exact Or.inl (Or.inr (Or.inl ⟨i, by rwa [size_chains_read] at hi, hstart⟩))
  · rw [reads_read] at hmem
    rcases Array.mem_push.1 hmem with hmem | rfl
    · exact Or.inl (Or.inr (Or.inr ⟨attempt, hmem, code, houtcome⟩))
    · refine Or.inr ?_
      rcases hrun : ((cursor.read r).run store).1 with fault | error | ⟨unit, next⟩
      · simp [hrun, Except.map] at houtcome
      · simp [hrun, Except.map] at houtcome
      · simp only [hrun, Except.map] at houtcome
        cases houtcome
        exact ⟨unit, rfl⟩

theorem Reaches.known (h : store.Reaches store') {cursor : Cursor} (hknown : store.Known cursor) :
    store'.Known cursor := by
  induction h with
  | refl => exact hknown
  | byte _ _ ih => exact ih.read .bytes _
  | rune _ _ ih => exact ih.read .runes _

theorem Reaches.size_chains (h : store.Reaches store') :
    store'.chains.size = store.chains.size := by
  induction h with
  | refl => rfl
  | byte _ _ ih => rw [Cursor.byte, size_chains_read, ih]
  | rune _ _ ih => rw [Cursor.rune, size_chains_read, ih]

/-! ## Runs made of reads -/

/-- A run from `store` was made of reads, and what it gives, if anything, is as `gives` says of
the store it left. -/
def Leads {ρ : Type} (store : Store) (gives : Store → ρ → Prop)
    (result : Except Fault ρ × Store) : Prop :=
  store.Reaches result.2 ∧ ∀ value, result.1 = .ok value → gives result.2 value

namespace Leads

variable {ρ σ : Type} {gives : Store → ρ → Prop} {gives' : Store → σ → Prop}

theorem fault (fault : Fault) : store.Leads gives (.error fault, store) :=
  ⟨.refl, fun _ h => by cases h⟩

theorem pure {value : ρ} (h : gives store value) : store.Leads gives (.ok value, store) := by
  refine ⟨.refl, ?_⟩
  intro value' heq
  cases heq
  exact h

theorem bind
    {x : Run ρ} {f : ρ → Run σ} (hx : store.Leads gives (x.run store))
    (hf : ∀ value store', store.Reaches store' → gives store' value →
      store'.Leads gives' ((f value).run store')) :
    store.Leads gives' ((x >>= f).run store) := by
  obtain ⟨hreaches, hgives⟩ := hx
  rw [Action.run_bind]
  rcases hrun : x.run store with ⟨fault | value, store'⟩
  · rw [hrun] at hreaches
    exact ⟨hreaches, fun _ h => by cases h⟩
  · rw [hrun] at hreaches hgives
    obtain ⟨hreaches', hgives'⟩ := hf value store' hreaches (hgives value rfl)
    exact ⟨hreaches.trans hreaches', hgives'⟩

end Leads

/-- A run from `store` was made of reads, it gives what `gives` says, and if it ends in a fault,
then in one that is excused. -/
def Proceeds {ρ : Type} (store : Store) (excused : Fault → Prop) (gives : Store → ρ → Prop)
    (result : Except Fault ρ × Store) : Prop :=
  store.Leads gives result ∧ ∀ fault, result.1 = .error fault → excused fault

namespace Proceeds

variable {ρ σ : Type} {store : Store} {excused : Fault → Prop} {gives : Store → ρ → Prop}
  {gives' : Store → σ → Prop}

theorem pure {value : ρ} (h : gives store value) :
    store.Proceeds excused gives (.ok value, store) :=
  ⟨.pure h, fun _ hfault => by cases hfault⟩

theorem fault {fault : Fault} (h : excused fault) :
    store.Proceeds excused gives (.error fault, store) := by
  refine ⟨.fault fault, ?_⟩
  rintro _ ⟨⟩
  exact h

theorem bind
    {x : Run ρ} {f : ρ → Run σ} (hx : store.Proceeds excused gives (x.run store))
    (hf : ∀ value store', store.Reaches store' → gives store' value →
      store'.Proceeds excused gives' ((f value).run store')) :
    store.Proceeds excused gives' ((x >>= f).run store) := by
  obtain ⟨hleads, hfaults⟩ := hx
  refine ⟨hleads.bind fun value store' hreaches hgives => (hf value store' hreaches hgives).1, ?_⟩
  intro fault hfault
  rw [Action.run_bind] at hfault
  rcases hrun : x.run store with ⟨fault' | value, store'⟩
  · rw [hrun] at hfault hfaults
    cases hfault
    exact hfaults fault rfl
  · rw [hrun] at hfault hleads
    exact (hf value store' hleads.1 (hleads.2 value rfl)).2 fault hfault

theorem mono
    {excused' : Fault → Prop} {result : Except Fault ρ × Store}
    (h : store.Proceeds excused gives result) (himp : ∀ fault, excused fault → excused' fault) :
    store.Proceeds excused' gives result :=
  ⟨h.1, fun fault hfault => himp fault (h.2 fault hfault)⟩

end Proceeds

def Anything {ρ : Type} (_ : Store) (_ : ρ) : Prop := True

/-- A unit with a known cursor, or an error. -/
def KnownAfter {α : Type} (store : Store) : Except Error (α × Cursor) → Prop
  | .error _ => True
  | .ok (_, cursor) => store.Known cursor

end Store

/-- Single reads by this reading are among those that stores are reached by. -/
def Reading.Usual {α : Type} (r : Reading α) : Prop :=
  ∀ ⦃store : Store⦄ ⦃cursor : Cursor⦄, store.Known cursor →
    store.Reaches ((cursor.read r).run store).2

theorem Reading.usual_bytes : bytes.Usual := fun _ _ h => .byte .refl h

theorem Reading.usual_runes : runes.Usual := fun _ _ h => .rune .refl h

namespace Cursor

open Store

variable {α β : Type} {r : Reading α} {excused : Fault → Prop} {store : Store} {cursor : Cursor}

theorem leads_read (hr : r.Usual) (h : store.Known cursor) :
    store.Leads KnownAfter ((cursor.read r).run store) := by
  refine ⟨hr h, ?_⟩
  rintro (error | ⟨unit, next⟩) hvalue
  · trivial
  · exact known_of_read hvalue

/-- A traversal proceeds where single reads do.  What single reads preserve of stores and cursors
holds of the cursor that the traversal ends at. -/
theorem proceeds_traverse_of_read
    (Invariant : Store → Cursor → Prop)
    (hreaches : ∀ ⦃store store' cursor⦄, store.Reaches store' → Invariant store cursor →
      Invariant store' cursor)
    (hread : ∀ ⦃store cursor⦄, Invariant store cursor →
      store.Proceeds excused (fun store' result => ∀ unit next, result = .ok (unit, next) →
        Invariant store' next) ((cursor.read r).run store))
    (rule : TraversalRule α β) (gathered : β) (h : Invariant store cursor) :
    store.Proceeds excused (fun store' traversal => Invariant store' traversal.cursor)
      (traverse r rule gathered cursor store) := by
  fun_induction traverse r rule gathered cursor store with
  | case1 gathered cursor store hwants fault store' hrun =>
      obtain ⟨⟨hreaches', -⟩, hfaults⟩ := hread h
      rw [hrun] at hreaches' hfaults
      refine ⟨⟨hreaches', fun _ hvalue => by cases hvalue⟩, ?_⟩
      rintro _ ⟨⟩
      exact hfaults fault rfl
  | case2 gathered cursor store hwants error store' hrun =>
      have hreaches' := (hread h).1.1
      rw [hrun] at hreaches'
      refine ⟨⟨hreaches', ?_⟩, fun _ hfault => by cases hfault⟩
      rintro _ ⟨⟩
      exact hreaches hreaches' h
  | case3 gathered cursor store hwants unit next store' hrun hlt haccepts ih =>
      obtain ⟨hreaches', hgives⟩ := (hread h).1
      rw [hrun] at hreaches' hgives
      obtain ⟨⟨hreaches'', hgives'⟩, hfaults⟩ := ih (hgives _ rfl unit next rfl)
      exact ⟨⟨hreaches'.trans hreaches'', hgives'⟩, hfaults⟩
  | case4 gathered cursor store hwants unit next store' hrun hlt haccepts =>
      have hreaches' := (hread h).1.1
      rw [hrun] at hreaches'
      refine ⟨⟨hreaches', ?_⟩, fun _ hfault => by cases hfault⟩
      rintro _ ⟨⟩
      exact hreaches hreaches' h
  | case5 gathered cursor store hwants => exact .pure h

@[simp] theorem store_bytesUntil (start stop : Cursor) (store : Store) :
    ((start.bytesUntil stop).run store).2 = store := by
  rw [bytesUntil]
  split
  · rfl
  · split
    · rfl
    · rfl
    · split
      · dsimp only
        split
        · rfl
        · split
          · rfl
          · split <;> rfl
      · rfl

theorem leads_bytesUntil (start stop : Cursor) (store : Store) :
    store.Leads Anything ((start.bytesUntil stop).run store) := by
  refine ⟨?_, fun _ _ => trivial⟩
  rw [store_bytesUntil]
  exact .refl

end Cursor

/-! ## Runs in the stores that are reached from one -/

/-- The cursor is known in a store that is reached from `base`. -/
structure Store.KnownFrom (base store : Store) (cursor : Cursor) : Prop where
  reaches : base.Reaches store
  known : store.Known cursor

namespace Store.KnownFrom

variable {base store store' : Store} {cursor next : Cursor}

theorem start (h : store.Known cursor) : store.KnownFrom store cursor := ⟨.refl, h⟩

theorem after (h : base.KnownFrom store cursor) (hreaches : store.Reaches store') :
    base.KnownFrom store' cursor :=
  ⟨h.reaches.trans hreaches, hreaches.known h.known⟩

theorem goto (h : base.KnownFrom store cursor) (hknown : store.Known next) :
    base.KnownFrom store next :=
  ⟨h.reaches, hknown⟩

end Store.KnownFrom

/-- In the stores that are reached from `base`, single reads from known cursors are made as usual,
and the faults they end in are excused. -/
def Reading.Behaves {α : Type} (r : Reading α) (base : Store) (excused : Fault → Prop) : Prop :=
  ∀ ⦃store : Store⦄ ⦃cursor : Cursor⦄, base.KnownFrom store cursor →
    store.Proceeds excused Store.KnownAfter ((cursor.read r).run store)

theorem Reading.Usual.behaves
    {α : Type} {r : Reading α} (hr : r.Usual) (base : Store) : r.Behaves base fun _ => True :=
  fun _ _ h => ⟨Cursor.leads_read hr h.known, fun _ _ => trivial⟩

namespace Reading.Behaves

open Store

variable {α β : Type} {r : Reading α} {base : Store} {excused : Fault → Prop} {store : Store}
  {cursor : Cursor}

theorem traverse
    (hr : r.Behaves base excused) (rule : TraversalRule α β) (gathered : β)
    (h : base.KnownFrom store cursor) :
    store.Proceeds excused (fun store' traversal => store'.Known traversal.cursor)
      (Cursor.traverse r rule gathered cursor store) := by
  have hread : ∀ ⦃store cursor⦄, base.KnownFrom store cursor →
      store.Proceeds excused (fun store' result => ∀ unit next, result = .ok (unit, next) →
        base.KnownFrom store' next) ((cursor.read r).run store) := by
    intro store cursor h
    obtain ⟨⟨hreaches, hknown⟩, hfaults⟩ := hr h
    refine ⟨⟨hreaches, ?_⟩, hfaults⟩
    rintro result hvalue unit next rfl
    exact (h.after hreaches).goto (hknown _ hvalue)
  obtain ⟨⟨hreaches, hknown⟩, hfaults⟩ := Cursor.proceeds_traverse_of_read base.KnownFrom
    (fun _ _ _ hreaches h => h.after hreaches) hread rule gathered h
  exact ⟨⟨hreaches, fun traversal hvalue => (hknown traversal hvalue).known⟩, hfaults⟩

theorem readWhile
    (hr : r.Behaves base excused) (accepts : α → Bool) (add : β → α → β) (start : β)
    (h : base.KnownFrom store cursor) :
    store.Proceeds excused (fun store' traversal => store'.Known traversal.cursor)
      ((cursor.readWhile r accepts add start).run store) :=
  hr.traverse _ start h

theorem readUpTo
    (hr : r.Behaves base excused) (limit : Option Nat) (h : base.KnownFrom store cursor) :
    store.Proceeds excused (fun store' traversal => store'.Known traversal.cursor)
      ((cursor.readUpTo r limit).run store) :=
  hr.traverse _ #[] h

/-- Having the input between two cursors as text ends in the faults of having it as bytes, and in
those of reading scalar values. -/
theorem textUntil
    (hrunes : runes.Behaves base excused) {start stop : Cursor}
    (hspan : ∀ fault, ((start.bytesUntil stop).run store).1 = .error fault → excused fault)
    (h : base.KnownFrom store start) :
    store.Proceeds excused Anything ((start.textUntil stop).run store) := by
  refine Proceeds.bind ⟨Cursor.leads_bytesUntil start stop store, hspan⟩ ?_
  intro bytes store' hreaches _
  rcases Utf8.decode bytes.toList with ⟨text, rest⟩
  dsimp only
  split
  · exact .pure trivial
  · have hseek : store'.Proceeds excused Anything
        ((start.seek (start.position.offset + (bytes.size - rest.length))).run store') :=
      Proceeds.bind (hrunes.traverse _ () (h.after hreaches)) fun _ _ _ _ => .pure trivial
    exact hseek.bind fun _ _ _ _ => .pure trivial

end Reading.Behaves

theorem Cursor.leads_textUntil {store : Store} {start : Cursor} (h : store.Known start)
    (stop : Cursor) : store.Leads Store.Anything ((start.textUntil stop).run store) :=
  ((Reading.usual_runes.behaves store).textUntil (fun _ _ => trivial) (.start h)).1

end StreamParse
