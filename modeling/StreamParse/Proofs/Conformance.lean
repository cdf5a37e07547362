import StreamParse.Proofs.Cursor.Plain
import StreamParse.Proofs.Cursor.Span
import StreamParse.Proofs.Session

/-!
# Sessions agree with the contents of their inputs

Every read that is made in a session, by whatever operation, gives exactly what the content of its
input gives.  The invariant behind this relates all known cursors to the contents, whichever of
them was read from first, and every single read keeps it.  A source that overclaims is dropped, and
from then on its content just ends where it did so.
-/

namespace StreamParse

/-! ## What every read keeps -/

namespace Store

/-- Every cursor sees what it saw before, or that content settled. -/
def Grows (store store' : Store) : Prop :=
  ∀ ⦃i : Nat⦄ ⦃content : Content⦄ ⦃cursor : Cursor⦄, store.Sees i (some content) cursor →
    store'.Sees i (some content) cursor ∨ store'.Sees i (some content.settled) cursor

variable {store store' : Store}

theorem Keeps.grows (h : store.Keeps store') : store.Grows store' := fun _ _ _ hsees =>
  Or.inl (h hsees)

theorem Grows.of_cut
    {i : Nat} {chain chain' : Chain} {conduct : Conduct} (hchain : store.chains[i]? = some chain)
    (hcut : chain.Cut chain' conduct)
    (hchains : store'.chains = store.chains.setIfInBounds i chain') : store.Grows store' := by
  intro j content cursor h
  rcases h.of_later hchain hcut.sound hcut.chunks hchains with hsame | ⟨hview, hlater⟩
  · exact Or.inl hsame
  · cases hview
    exact Or.inr (hcut.content ▸ hlater)

end Store

namespace Reading

variable {α : Type} {r : Reading α}

/-- A read changes the content that cursors see at most by settling it. -/
theorem Account.grows_read
    (account : r.Account) {store : Store} {i : Nat} {view : Option Content} {cursor : Cursor}
    (h : store.Sees i view cursor) : store.Grows ((cursor.read r).run store).2 := by
  cases h with
  | @detached position =>
      intro i content cursor hsees
      cases hsees with
      | attached hchain hsound hmarks => exact Or.inl (.attached hchain hsound hmarks)
  | @attached chain place position hchain hsound hmarks =>
      have hfinds := account.finds ⟨chain, store.journal⟩ hsound hmarks
      generalize account.find chain.content position.offset = found at hfinds
      generalize hread : (r.read place).run ⟨chain, store.journal⟩ = result at hfinds
      simp only [Cursor.read, Cursor.unit, Action.run_bind, Store.onChain, hchain, hread]
      cases hfinds with
      | unit hextends _ => exact (Store.Keeps.of_extends hchain hextends rfl).grows
      | halt hextends => exact (Store.Keeps.of_extends hchain hextends rfl).grows
      | fault hcut => exact .of_cut hchain hcut rfl

end Reading

/-! ## Stores that hold some contents -/

/-- An attempt that came to what the content of its input gives.  Of an input whose source
overclaims, only the position is said to lie within it. -/
def Attempt.Conforms (contents : List Content) (attempt : Attempt) : Prop :=
  ∀ anchor, attempt.cursor.anchor = some anchor →
    ∃ content, contents[anchor.chain]? = some content ∧
      attempt.cursor.position.offset ≤ content.bytes.length ∧
      ((∀ conduct, content.ending ≠ .overclaimed conduct) →
        ∃ result, attempt.outcome = .ok result ∧
          (∀ given, content.Gives attempt.grain attempt.cursor.position given ↔
            given = result.map fun (code, next) => (code, next.position)) ∧
          ∀ code next, result = .ok (code, next) →
            ∃ place, next.anchor = some ⟨anchor.chain, place⟩)

deriving instance DecidableEq for Attempt

theorem Attempt.Conforms.gives
    {contents : List Content} {grain : Grain} {cursor : Cursor}
    {result : Except Error (Nat × Cursor)} (h : Conforms contents ⟨grain, cursor, .ok result⟩)
    {anchor : Anchor} (hanchor : cursor.anchor = some anchor) {content : Content}
    (hcontent : contents[anchor.chain]? = some content)
    (hending : ∀ conduct, content.ending ≠ .overclaimed conduct) :
    content.Gives grain cursor.position
      (result.map fun (code, next) => (code, next.position)) := by
  obtain ⟨content', hcontent', -, hgives⟩ := h anchor hanchor
  rw [hcontent] at hcontent'
  obtain rfl := Option.some.inj hcontent'
  obtain ⟨result', hresult, hgives, -⟩ := hgives hending
  obtain rfl := Except.ok.inj hresult
  exact (hgives _).2 rfl

namespace Store

/-- The cursor belongs to an input and sees its content, or that content settled. -/
def SeesIn (store : Store) (contents : List Content) (cursor : Cursor) : Prop :=
  ∀ anchor, cursor.anchor = some anchor →
    ∃ content, contents[anchor.chain]? = some content ∧
      (store.Sees anchor.chain (some content) cursor ∨
        store.Sees anchor.chain (some content.settled) cursor)

/-- The invariant of sessions: every known cursor sees the content of its input, and all reads so
far conform. -/
structure Holds (store : Store) (contents : List Content) : Prop where
  size : store.chains.size = contents.length
  sees : ∀ {cursor : Cursor}, store.Known cursor → store.SeesIn contents cursor
  conforms : ∀ attempt ∈ store.reads, attempt.Conforms contents

variable {store store' : Store} {contents : List Content} {cursor : Cursor}

theorem seesIn_of_sees
    {i : Nat} {content view : Content} (hcontent : contents[i]? = some content)
    (hview : view = content ∨ view = content.settled) (hsees : store.Sees i (some view) cursor) :
    store.SeesIn contents cursor := by
  intro anchor hanchor
  cases hsees with
  | attached hchain hsound hmarks =>
      cases hanchor
      refine ⟨content, hcontent, ?_⟩
      rcases hview with hview | hview
      · exact Or.inl (hview ▸ .attached hchain hsound hmarks)
      · exact Or.inr (hview ▸ .attached hchain hsound hmarks)

theorem SeesIn.exists_sees (h : store.SeesIn contents cursor) :
    ∃ i view, store.Sees i view cursor := by
  obtain ⟨anchor, position⟩ := cursor
  cases anchor with
  | none => exact ⟨0, none, .detached⟩
  | some anchor =>
      obtain ⟨content, -, hsees | hsees⟩ := h anchor rfl
      · exact ⟨_, _, hsees⟩
      · exact ⟨_, _, hsees⟩

theorem SeesIn.grows (h : store.SeesIn contents cursor) (hgrows : store.Grows store') :
    store'.SeesIn contents cursor := by
  intro anchor hanchor
  obtain ⟨content, hcontent, hsees | hsees⟩ := h anchor hanchor
  · exact ⟨content, hcontent, hgrows hsees⟩
  · have hsettled := hgrows hsees
    rw [Content.settled_settled, or_self] at hsettled
    exact ⟨content, hcontent, Or.inr hsettled⟩

section

variable {α : Type} {r : Reading α}

/-- A read from a cursor that sees a content conforms to it. -/
theorem conforms_read
    (account : r.Account) (hfaithful : Content.Faithful account)
    (hsees : store.SeesIn contents cursor) :
    Attempt.Conforms contents ⟨r.grain, cursor,
      ((cursor.read r).run store).1.map (·.map fun (unit, next) => (r.code unit, next))⟩ := by
  intro anchor hanchor
  obtain ⟨content, hcontent, hview⟩ := hsees anchor hanchor
  have hle : cursor.position.offset ≤ content.bytes.length := by
    rcases hview with hview | hview
    · exact Cursor.offset_le_of_sees hview
    · exact content.bytes_settled ▸ Cursor.offset_le_of_sees hview
  refine ⟨content, hcontent, hle, ?_⟩
  intro hending
  rw [Content.settled_of_ending hending, or_self] at hview
  have hcomes := account.comes_read hview
  obtain ⟨parsed, hparsed⟩ := account.reference_total cursor.position hending
  simp only [hfaithful hle, hparsed] at hcomes ⊢
  generalize (cursor.read r).run store = result at hcomes ⊢
  rcases parsed with error | ⟨unit, q⟩
  · cases hcomes with
    | error =>
        refine ⟨.error error, rfl, fun given => ?_, fun _ _ heq => by cases heq⟩
        exact ⟨fun heq => (Except.ok.inj heq).symm, fun heq => congrArg Except.ok heq.symm⟩
  · obtain ⟨next, store', rfl, rfl, -, -, hnext⟩ := hcomes.exists_of_success
    refine ⟨.ok (r.code unit, next), rfl, fun given => ?_, fun code next' heq => ?_⟩
    · exact ⟨fun heq => (Except.ok.inj heq).symm, fun heq => congrArg Except.ok heq.symm⟩
    · cases heq
      cases hnext with
      | attached => exact ⟨_, rfl⟩

theorem SeesIn.next
    (account : r.Account) (h : store.SeesIn contents cursor) {unit : α} {next : Cursor}
    (hnext : ((cursor.read r).run store).1 = .ok (.ok (unit, next))) :
    SeesIn ((cursor.read r).run store).2 contents next := by
  obtain ⟨anchor, position⟩ := cursor
  cases anchor with
  | none => cases hnext
  | some anchor =>
      have hsame : ∀ view, store.Sees anchor.chain (some view) ⟨some anchor, position⟩ →
          Sees ((Cursor.read r ⟨some anchor, position⟩).run store).2 anchor.chain (some view)
            next := by
        intro view hview
        have hcomes := account.comes_read hview
        generalize (Cursor.read r ⟨some anchor, position⟩).run store = result at hcomes hnext ⊢
        generalize account.reference (some view) position = outcome at hcomes
        cases hcomes with
        | fault => cases hnext
        | error => cases hnext
        | success _ _ hsees =>
            cases hnext
            exact hsees
      obtain ⟨content, hcontent, hview | hview⟩ := h anchor rfl
      · exact seesIn_of_sees hcontent (Or.inl rfl) (hsame _ hview)
      · exact seesIn_of_sees hcontent (Or.inr rfl) (hsame _ hview)

theorem Holds.read
    (account : r.Account) (hfaithful : Content.Faithful account) (h : store.Holds contents)
    (hknown : store.Known cursor) : Holds ((cursor.read r).run store).2 contents := by
  have hsees := h.sees hknown
  obtain ⟨i, view, hview⟩ := hsees.exists_sees
  have hgrows := account.grows_read hview
  refine ⟨?_, fun {cursor'} hknown' => ?_, fun attempt hmem => ?_⟩
  · rw [size_chains_read, h.size]
  · rcases known_or_next_of_read hknown' with hold | ⟨unit, hnext⟩
    · exact (h.sees hold).grows hgrows
    · exact hsees.next account hnext
  · rw [reads_read] at hmem
    rcases Array.mem_push.1 hmem with hmem | rfl
    · exact h.conforms attempt hmem
    · exact conforms_read account hfaithful hsees

end

/-- Whatever is reached by single reads holds the same contents. -/
theorem Holds.reaches (h : store.Holds contents) (hreaches : store.Reaches store') :
    store'.Holds contents := by
  induction hreaches with
  | refl => exact h
  | byte _ hknown ih => exact ih.read .bytes Content.faithful_bytes hknown
  | rune _ hknown ih => exact ih.read .runes Content.faithful_runes hknown

end Store

/-! ## Sessions -/

def Input.contents (inputs : List (String × Input)) : List Content :=
  inputs.filterMap fun (_, input) => input.content

namespace Store

theorem keeps_insert (store : Store) (chain : Chain) : store.Keeps (store.insert chain).2 := by
  intro i view cursor hsees
  cases hsees with
  | detached => exact .detached
  | attached hchain hsound hmarks =>
      have hlt := (Array.getElem?_eq_some_iff.1 hchain).1
      refine .attached ?_ hsound hmarks
      rw [insert, Array.getElem?_push_lt hlt, ← Array.getElem?_eq_getElem hlt, hchain]

theorem Known.insert {store : Store} {cursor : Cursor} (h : store.Known cursor) (chain : Chain) :
    (store.insert chain).2.Known cursor := by
  rcases h with hdefault | ⟨i, hi, hstart⟩ | hread
  · exact Or.inl hdefault
  · refine Or.inr (Or.inl ⟨i, ?_, hstart⟩)
    rw [Store.insert, Array.size_push]
    omega
  · exact Or.inr (Or.inr hread)

theorem SeesIn.append
    {store : Store} {contents : List Content} {cursor : Cursor} (h : store.SeesIn contents cursor)
    (more : List Content) : store.SeesIn (contents ++ more) cursor := by
  intro anchor hanchor
  obtain ⟨content, hcontent, hview⟩ := h anchor hanchor
  have hlt := (List.getElem?_eq_some_iff.1 hcontent).1
  exact ⟨content, by rw [List.getElem?_append_left hlt, hcontent], hview⟩

theorem Holds.insert
    {store : Store} {contents : List Content} (h : store.Holds contents)
    (hreads : store.reads = #[]) {chain : Chain} {content : Content}
    (hsees : (store.insert chain).2.Sees store.chains.size (some content)
      (store.insert chain).1) :
    (store.insert chain).2.Holds (contents ++ [content]) := by
  refine ⟨?_, fun {cursor} hknown => ?_, ?_⟩
  · rw [Store.insert, Array.size_push, h.size, List.length_append, List.length_singleton]
  · rcases hknown with rfl | ⟨i, hi, rfl⟩ | ⟨attempt, hmem, -⟩
    · intro anchor hanchor
      cases hanchor
    · rw [Store.insert, Array.size_push] at hi
      by_cases hold : i < store.chains.size
      · have hsees' := h.sees (Or.inr (Or.inl ⟨i, hold, rfl⟩))
        exact (hsees'.grows (store.keeps_insert chain).grows).append [content]
      · obtain rfl : i = store.chains.size := by omega
        refine seesIn_of_sees ?_ (Or.inl rfl) hsees
        rw [h.size, List.getElem?_append_right (Nat.le_refl _), Nat.sub_self]
        rfl
    · rw [Store.insert, hreads] at hmem
      simp at hmem
  · rw [Store.insert, hreads]
    simp

end Store

namespace Input

variable {store : Store} {contents : List Content}

theorem holds_enter
    (input : Input) (h : store.Holds contents) (hreads : store.reads = #[]) :
    (input.enter store).2.Holds (contents ++ input.content.toList) := by
  have hsees := input.sees_enter store
  cases input with
  | complete bytes => exact h.insert hreads hsees
  | streaming source config => exact h.insert hreads hsees
  | detached => simpa [enter, content] using h

theorem known_enter (input : Input) (store : Store) :
    (input.enter store).2.Known (input.enter store).1 := by
  cases input with
  | detached => exact Or.inl rfl
  | complete bytes => exact Or.inr (Or.inl ⟨_, by simp [enter, Store.insert], rfl⟩)
  | streaming source config => exact Or.inr (Or.inl ⟨_, by simp [enter, Store.insert], rfl⟩)

theorem known_of_known (input : Input) {cursor : Cursor} (h : store.Known cursor) :
    (input.enter store).2.Known cursor := by
  cases input with
  | detached => exact h
  | complete bytes => exact h.insert _
  | streaming source config => exact h.insert _

theorem reads_enter (input : Input) (store : Store) :
    (input.enter store).2.reads = store.reads := by
  cases input <;> rfl

end Input

namespace Session

/-- The invariant of a session that has not read yet: its store holds the contents entered so far,
and its registers hold known cursors. -/
structure Fresh (session : Session) (contents : List Content) : Prop where
  holds : session.store.Holds contents
  reads : session.store.reads = #[]
  known : session.registers.Known session.store

theorem Fresh.enter
    {session : Session} {contents : List Content} (h : session.Fresh contents)
    (input : String × Input) :
    (session.enter input).Fresh (contents ++ input.2.content.toList) where
  holds := input.2.holds_enter h.holds h.reads
  reads := by rw [← h.reads]; exact input.2.reads_enter session.store
  known := by
    have hold : session.registers.Known (input.2.enter session.store).2 := fun entry hmem =>
      input.2.known_of_known (h.known entry hmem)
    exact hold.set input.1 (input.2.known_enter session.store)

theorem fresh_foldl
    {session : Session} {contents : List Content} (h : session.Fresh contents)
    (inputs : List (String × Input)) :
    (inputs.foldl enter session).Fresh (contents ++ Input.contents inputs) := by
  induction inputs generalizing session contents with
  | nil => simpa [Input.contents] using h
  | cons input inputs ih =>
      have hcontents : contents ++ Input.contents (input :: inputs) =
          contents ++ input.2.content.toList ++ Input.contents inputs := by
        cases hcontent : input.2.content <;> simp [Input.contents, hcontent]
      rw [hcontents]
      exact ih (h.enter input)

/-- A session at its start holds the contents of its inputs. -/
theorem fresh_start (grammar : Grammar) (inputs : List (String × Input)) :
    (start grammar inputs).Fresh (Input.contents inputs) := by
  have hempty : Fresh ⟨grammar, [], .empty⟩ [] :=
    ⟨⟨rfl, fun hknown => ?_, by simp [Store.empty]⟩, rfl, by simp [Registers.Known]⟩
  · exact fresh_foldl hempty inputs
  · rcases hknown with rfl | ⟨i, hi, -⟩ | ⟨attempt, hmem, -⟩
    · intro anchor hanchor
      cases hanchor
    · simp [Store.empty] at hi
    · simp [Store.empty] at hmem

theorem holds_run
    (grammar : Grammar) (inputs : List (String × Input)) (operations : List Operation) :
    ((start grammar inputs).run operations).2.store.Holds (Input.contents inputs) ∧
      ((start grammar inputs).run operations).2.registers.Known
        ((start grammar inputs).run operations).2.store := by
  have hfresh := fresh_start grammar inputs
  obtain ⟨hreaches, hknown⟩ := run_reaches hfresh.known operations
  exact ⟨hfresh.holds.reaches hreaches, hknown⟩

/-- Reads refine a plain byte string.  Whatever single reads were made from known cursors, each of
them gave exactly what the content of its input gives at its position.  So it is with all reads
of a session, over any inputs and by any operations in any order, and with every read that could
be made next from one of its registers. -/
theorem reads_conform (grammar : Grammar) (inputs : List (String × Input)) :
    (∀ store, (start grammar inputs).store.Reaches store →
      ∀ attempt ∈ store.reads, attempt.Conforms (Input.contents inputs)) ∧
    ∀ operations : List Operation,
      let session := ((start grammar inputs).run operations).2
      (∀ attempt ∈ session.store.reads, attempt.Conforms (Input.contents inputs)) ∧
        ∀ name cursor, session.registers.get? name = some cursor →
          Attempt.Conforms (Input.contents inputs)
            ⟨.byte, cursor, (cursor.byte.run session.store).1.map
              (·.map fun (b, next) => (b.toNat, next))⟩ ∧
          Attempt.Conforms (Input.contents inputs)
            ⟨.rune, cursor, (cursor.rune.run session.store).1.map
              (·.map fun (c, next) => (c.toNat, next))⟩ := by
  refine ⟨fun store hreaches => ?_, fun operations => ?_⟩
  · exact ((fresh_start grammar inputs).holds.reaches hreaches).conforms
  · obtain ⟨hholds, hregisters⟩ := holds_run grammar inputs operations
    refine ⟨hholds.conforms, ?_⟩
    intro name cursor hget
    have hsees := hholds.sees (hregisters.get? hget)
    exact ⟨Store.conforms_read .bytes Content.faithful_bytes hsees,
      Store.conforms_read .runes Content.faithful_runes hsees⟩

/-- A scalar value comes in three pieces, the first of which begins with a byte before it.  After it
the input ends. -/
theorem reads_conform_of_pieces :
    let source : Source :=
      ⟨.supplier, [.deliver [0x41, 0xE2] false, .deliver [0x82] false, .deliver [0xAC] true]⟩
    let inputs : List (String × Input) := [("s", .streaming source default)]
    let operations : List Operation := [.byte "s" "t", .rune "t" "u", .byte "u" "v"]
    let content : Content := ⟨[0x41, 0xE2, 0x82, 0xAC], .ended⟩
    let before : Cursor := ⟨some ⟨0, ⟨1, 1⟩⟩, ⟨1, 1, 2⟩⟩
    let after : Cursor := ⟨some ⟨0, ⟨3, 1⟩⟩, ⟨4, 1, 3⟩⟩
    (Input.contents inputs)[0]? = some content ∧
      ((start ⟨[]⟩ inputs).run operations).2.store.reads.toList =
        [⟨.byte, ⟨some ⟨0, ⟨0, 0⟩⟩, .start⟩, .ok (.ok (0x41, before))⟩,
          ⟨.rune, before, .ok (.ok (0x20AC, after))⟩, ⟨.byte, after, .ok (.error .endOfInput)⟩] ∧
      content.Gives .rune ⟨1, 1, 2⟩ (.ok (0x20AC, ⟨4, 1, 3⟩)) ∧
      content.Gives .byte ⟨4, 1, 3⟩ (.error .endOfInput) := by
  intro source inputs operations content before after
  have hcontent : (Input.contents inputs)[0]? = some content := rfl
  have hended : ∀ conduct, content.ending ≠ .overclaimed conduct := by
    rintro _ ⟨⟩
  have hrecord : ((start ⟨[]⟩ inputs).run operations).2.store.reads.toList =
      [⟨.byte, ⟨some ⟨0, ⟨0, 0⟩⟩, .start⟩, .ok (.ok (0x41, before))⟩,
        ⟨.rune, before, .ok (.ok (0x20AC, after))⟩, ⟨.byte, after, .ok (.error .endOfInput)⟩] := by
    decide +kernel
  obtain ⟨hreads, -⟩ := (reads_conform ⟨[]⟩ inputs).2 operations
  simp only [← Array.mem_toList_iff, hrecord] at hreads
  refine ⟨hcontent, hrecord, ?_, ?_⟩
  · exact (hreads ⟨.rune, before, .ok (.ok (0x20AC, after))⟩ (by simp)).gives rfl hcontent hended
  · exact (hreads ⟨.byte, after, .ok (.error .endOfInput)⟩ (by simp)).gives rfl hcontent hended

end Session
end StreamParse
