import StreamParse.Proofs.Input
import StreamParse.Proofs.Parser.Reach

/-!
# Sessions are made of reads

The registers of a session only ever hold cursors that are known, and every operation changes the
store by single reads from known cursors.  So whatever such reads preserve, a session preserves,
in whatever order its operations come and even if some of them end in faults.
-/

namespace StreamParse

open Store

/-- Every register holds a known cursor. -/
def Registers.Known (registers : Registers) (store : Store) : Prop :=
  ∀ entry ∈ registers, store.Known entry.2

namespace Registers

variable {registers : Registers} {store store' : Store}

theorem Known.get? (h : registers.Known store) {name : String} {cursor : Cursor}
    (hget : registers.get? name = some cursor) : store.Known cursor := by
  obtain ⟨before, after, hsplit, -⟩ := List.lookup_eq_some_iff.1 hget
  exact h (name, cursor) (by simp [hsplit])

theorem Known.erase (h : registers.Known store) (name : String) :
    (registers.erase name).Known store :=
  fun entry hmem => h entry (List.mem_filter.1 hmem).1

theorem Known.set (h : registers.Known store) (name : String) {cursor : Cursor}
    (hcursor : store.Known cursor) : (registers.set name cursor).Known store := by
  intro entry hmem
  rcases List.mem_cons.1 hmem with rfl | hmem
  · exact hcursor
  · exact h.erase name entry hmem

theorem Known.reaches (h : registers.Known store) (hreaches : store.Reaches store') :
    registers.Known store' :=
  fun entry hmem => hreaches.known (h entry hmem)

theorem proceeds_cursor
    {base : Store} {excused : Fault → Prop} (hnames : ∀ name, excused (.undefined name))
    (hbase : base.Reaches store) (h : registers.Known store) (name : String) :
    store.Proceeds excused base.KnownFrom ((registers.cursor name).run store) := by
  rw [cursor]
  split
  · next cursor hget => exact .pure ⟨hbase, h.get? hget⟩
  · exact .fault (hnames name)

end Registers

namespace Operation

variable {registers : Registers} {base store : Store} {excused : Fault → Prop}

/-- The registers that an operation leaves hold known cursors.  What it reports is no fault: a fault
would have ended it. -/
structure Completes (store : Store) (outcome : Outcome) : Prop where
  known : outcome.2.Known store
  report : ∀ fault, outcome.1 ≠ .fault fault

section

variable (hnames : ∀ name, excused (.undefined name)) (hbase : base.Reaches store)
  (h : registers.Known store)
include hnames hbase h

theorem proceeds_single
    {α : Type} {r : Reading α} (hr : r.Behaves base excused) (source target : String)
    {report : α → Position → Report} (hreport : ∀ unit p fault, report unit p ≠ .fault fault) :
    store.Proceeds excused Completes ((single registers r source target report).run store) := by
  refine (Registers.proceeds_cursor hnames hbase h source).bind ?_
  intro cursor store₁ hreaches hcursor
  refine (hr hcursor).bind ?_
  intro result store₂ hreaches' hknown
  have h₂ := (h.reaches hreaches).reaches hreaches'
  rcases result with error | ⟨unit, next⟩
  · exact .pure ⟨h₂, nofun⟩
  · exact .pure ⟨h₂.set target hknown, hreport _ _⟩

theorem proceeds_several
    {α : Type} {r : Reading α} (hr : r.Behaves base excused) (source target : String)
    (limit : Option Nat) {report : Array α → Option Error → Position → Report}
    (hreport : ∀ units error p fault, report units error p ≠ .fault fault) :
    store.Proceeds excused Completes
      ((several registers r source target limit report).run store) := by
  refine (Registers.proceeds_cursor hnames hbase h source).bind ?_
  intro cursor store₁ hreaches hcursor
  refine (hr.readUpTo limit hcursor).bind ?_
  intro traversal store₂ hreaches' hknown
  exact .pure ⟨((h.reaches hreaches).reaches hreaches').set target hknown, hreport _ _ _⟩

/-- Every operation is made of reads, and ends in a fault only if it names nothing, if its grammar
has no end, or if a read or a span between known cursors does. -/
theorem proceeds_perform
    (hexcuses : base.Excuses excused) (hendless : excused .endless) (grammar : Grammar)
    (operation : Operation) :
    store.Proceeds excused Completes ((operation.perform grammar registers).run store) := by
  have hcursor : ∀ {store'}, store.Reaches store' → ∀ name,
      store'.Proceeds excused base.KnownFrom ((registers.cursor name).run store') :=
    fun hreaches name =>
      Registers.proceeds_cursor hnames (hbase.trans hreaches) (h.reaches hreaches) name
  cases operation with
  | byte source target => exact proceeds_single hnames hbase h hexcuses.bytes source target nofun
  | rune source target => exact proceeds_single hnames hbase h hexcuses.runes source target nofun
  | bytes source target limit =>
      exact proceeds_several hnames hbase h hexcuses.bytes source target limit
        fun _ _ _ _ => nofun
  | runes source target limit =>
      rw [perform]
      exact proceeds_several hnames hbase h hexcuses.runes source target limit
        fun _ _ _ _ => nofun
  | skipBytes source target limit =>
      rw [perform]
      exact proceeds_several hnames hbase h hexcuses.bytes source target limit
        fun _ _ _ _ => nofun
  | skipRunes source target limit =>
      rw [perform]
      exact proceeds_several hnames hbase h hexcuses.runes source target limit
        fun _ _ _ _ => nofun
  | bytesUntil source stop =>
      refine (hcursor .refl source).bind ?_
      intro first store₁ h₁ hfirst
      refine (hcursor h₁ stop).bind ?_
      intro last store₂ h₂ hlast
      have hspan : store₂.Proceeds excused Anything ((first.bytesUntil last).run store₂) :=
        ⟨Cursor.leads_bytesUntil first last store₂, hexcuses.span (hfirst.after h₂) hlast.known⟩
      refine hspan.bind ?_
      intro bytes store₃ h₃ _
      exact .pure ⟨((h.reaches h₁).reaches h₂).reaches h₃, nofun⟩
  | textUntil source stop =>
      refine (hcursor .refl source).bind ?_
      intro first store₁ h₁ hfirst
      refine (hcursor h₁ stop).bind ?_
      intro last store₂ h₂ hlast
      have hspan := hexcuses.span (hfirst.after h₂) hlast.known
      refine (hexcuses.runes.textUntil hspan (hfirst.after h₂)).bind ?_
      intro text store₃ h₃ _
      cases text <;> exact .pure ⟨((h.reaches h₁).reaches h₂).reaches h₃, nofun⟩
  | same first second =>
      refine (hcursor .refl first).bind ?_
      intro a store₁ h₁ _
      refine (hcursor h₁ second).bind ?_
      intro b store₂ h₂ _
      exact .pure ⟨(h.reaches h₁).reaches h₂, nofun⟩
  | copy source target =>
      refine (hcursor .refl source).bind ?_
      intro cursor store₁ h₁ hcursor
      exact .pure ⟨(h.reaches h₁).set target hcursor.known, nofun⟩
  | drop source => exact .pure ⟨h.erase source, nofun⟩
  | position source =>
      refine (hcursor .refl source).bind ?_
      intro cursor store₁ h₁ _
      exact .pure ⟨h.reaches h₁, nofun⟩
  | describe source =>
      refine (hcursor .refl source).bind ?_
      intro cursor store₁ h₁ _
      exact .pure ⟨h.reaches h₁, nofun⟩
  | parse source target expr failTarget =>
      have hparser : (grammar.parser registers.get? expr).Behaves store excused :=
        grammar.parser_behaves (hexcuses.after hbase) hnames hendless
          (fun _ _ hget => h.get? hget) expr
      refine (hcursor .refl source).bind ?_
      intro entry store₁ h₁ hentry
      refine (hparser ⟨h₁, hentry.known⟩).bind ?_
      intro parsed store₂ h₂ hknown
      have hregisters := (h.reaches h₁).reaches h₂
      rcases parsed with failure | ⟨value, cursor⟩
      · cases failTarget with
        | none => exact .pure ⟨hregisters, nofun⟩
        | some name => exact .pure ⟨hregisters.set name hknown, nofun⟩
      · exact .pure ⟨hregisters.set target hknown, nofun⟩

end

end Operation

namespace Session

theorem step_reaches
    {session : Session} (h : session.registers.Known session.store) (operation : Operation) :
    session.store.Reaches (session.step operation).2.store ∧
      (session.step operation).2.registers.Known (session.step operation).2.store := by
  obtain ⟨⟨hreaches, hknown⟩, -⟩ := Operation.proceeds_perform (fun _ => trivial) .refl h
    session.store.excuses_true trivial session.grammar operation
  rw [step]
  rcases hrun : (operation.perform session.grammar session.registers).run session.store with
    ⟨fault | ⟨report, registers⟩, store⟩
  · rw [hrun] at hreaches
    exact ⟨hreaches, h.reaches hreaches⟩
  · rw [hrun] at hreaches hknown
    exact ⟨hreaches, (hknown _ rfl).known⟩

theorem fault_of_step
    {base : Store} {excused : Fault → Prop} (hnames : ∀ name, excused (.undefined name))
    (hendless : excused .endless) (hexcuses : base.Excuses excused) {session : Session}
    (hbase : base.Reaches session.store) (h : session.registers.Known session.store)
    {operation : Operation} {fault : Fault} (hfault : (session.step operation).1 = .fault fault) :
    excused fault := by
  obtain ⟨⟨-, hcompletes⟩, hfaults⟩ := Operation.proceeds_perform hnames hbase h hexcuses hendless
    session.grammar operation
  rw [step] at hfault
  rcases hrun : (operation.perform session.grammar session.registers).run session.store with
    ⟨fault' | ⟨report, registers⟩, store⟩
  · rw [hrun] at hfault hfaults
    cases hfault
    exact hfaults _ rfl
  · rw [hrun] at hfault hcompletes
    exact absurd hfault ((hcompletes _ rfl).report fault)

/-- A whole session is made of reads. -/
theorem run_reaches
    {session : Session} (h : session.registers.Known session.store)
    (operations : List Operation) :
    session.store.Reaches (session.run operations).2.store ∧
      (session.run operations).2.registers.Known (session.run operations).2.store := by
  induction operations generalizing session with
  | nil => exact ⟨.refl, h⟩
  | cons operation rest ih =>
      obtain ⟨hreaches, hknown⟩ := step_reaches h operation
      obtain ⟨hreaches', hknown'⟩ := ih hknown
      exact ⟨hreaches.trans hreaches', hknown'⟩

theorem fault_of_run
    {base : Store} {excused : Fault → Prop} (hnames : ∀ name, excused (.undefined name))
    (hendless : excused .endless) (hexcuses : base.Excuses excused) {session : Session}
    (hbase : base.Reaches session.store) (h : session.registers.Known session.store)
    {operations : List Operation} {fault : Fault} {requests : Nat}
    (hmem : (.fault fault, requests) ∈ (session.run operations).1) : excused fault := by
  induction operations generalizing session with
  | nil => simp [run] at hmem
  | cons operation rest ih =>
      obtain ⟨hreaches, hknown⟩ := step_reaches h operation
      rcases List.mem_cons.1 hmem with heq | hmem
      · exact fault_of_step hnames hendless hexcuses hbase h (congrArg Prod.fst heq).symm
      · exact ih (hbase.trans hreaches) hknown hmem

end Session
end StreamParse
