import StreamParse.Proofs.Chain.Reading
import StreamParse.Store

/-!
# Cursors and the content they see

From a cursor only the content of its input can be seen, from its position on.  How much of the
input is there already makes no difference, so what was seen from one cursor stays the same while
others are read from.

A reading is followed by comparing it with an account of what it finds in a content.  Along with
the result, the comparison keeps an eye on the errors of reads: whatever is not just a missing
match has to be raised.
-/

namespace StreamParse

/-- What came of reading or parsing, with the position that it led to. -/
abbrev Outcome (α : Type) := Except Fault (Except Error (α × Position))

/-- What is to come of reading or parsing from a position, decided by the content.  A position may
also belong to no input. -/
abbrev Reference (α : Type) := Option Content → Position → Outcome α

namespace Store

/-- The cursors that reading chain `i` leads to see its content.  A cursor without input sees
none. -/
inductive Sees (store : Store) (i : Nat) : Option Content → Cursor → Prop
  | detached {position : Position} : Sees store i none ⟨none, position⟩
  | attached {chain : Chain} {place : Place} {position : Position} :
    store.chains[i]? = some chain → chain.Sound → chain.Marks place position.offset →
      Sees store i (some chain.content) ⟨some ⟨i, place⟩, position⟩

/-- Every cursor sees what it saw before. -/
def Keeps (store store' : Store) : Prop :=
  ∀ ⦃i : Nat⦄ ⦃view : Option Content⦄ ⦃cursor : Cursor⦄,
    store.Sees i view cursor → store'.Sees i view cursor

/-- Of the errors that reads met from one store to the other, those that do not fall through are
all the one that is raised. -/
def Heeds (store store' : Store) (raised : Option Error) : Prop :=
  ∃ attempts : List Attempt, store'.reads.toList = store.reads.toList ++ attempts ∧
    ∀ attempt ∈ attempts, ∀ error, attempt.outcome = .ok (.error error) →
      error.fallsThrough = false → raised = some error

section

variable {store store' store'' : Store}

theorem Keeps.refl (store : Store) : store.Keeps store := fun _ _ _ h => h

theorem Keeps.trans (h : store.Keeps store') (h' : store'.Keeps store'') :
    store.Keeps store'' :=
  fun _ _ _ hsees => h' (h hsees)

/-- When a chain takes on a later form, all other chains are seen as before, and its own cursors
see the content that it has then. -/
theorem Sees.of_later
    {i j : Nat} {chain chain' : Chain} {view : Option Content} {cursor : Cursor}
    (h : store.Sees j view cursor) (hchain : store.chains[i]? = some chain)
    (hsound : chain'.Sound) (hchunks : chain.chunks.toList <+: chain'.chunks.toList)
    (hchains : store'.chains = store.chains.setIfInBounds i chain') :
    store'.Sees j view cursor ∨
      view = some chain.content ∧ store'.Sees j (some chain'.content) cursor := by
  cases h with
  | detached => exact Or.inl .detached
  | @attached chain₁ place position hchain₁ hsound₁ hmarks =>
      by_cases hij : j = i
      · subst hij
        rw [hchain] at hchain₁
        cases hchain₁
        have hlt := (Array.getElem?_eq_some_iff.1 hchain).1
        refine Or.inr ⟨rfl, .attached ?_ hsound (Chain.marks_of_isPrefix hchunks hmarks)⟩
        rw [hchains, Array.getElem?_setIfInBounds_self_of_lt hlt]
      · refine Or.inl (.attached ?_ hsound₁ hmarks)
        rw [hchains, Array.getElem?_setIfInBounds_ne (Ne.symm hij), hchain₁]

theorem Keeps.of_extends
    {i : Nat} {chain chain' : Chain} (hchain : store.chains[i]? = some chain)
    (hextends : chain.Extends chain')
    (hchains : store'.chains = store.chains.setIfInBounds i chain') :
    store.Keeps store' := by
  intro j view cursor h
  rcases h.of_later hchain hextends.sound hextends.chunks hchains with hsame | ⟨rfl, hlater⟩
  · exact hsame
  · exact hextends.content ▸ hlater

theorem Heeds.refl (store : Store) (raised : Option Error) : store.Heeds store raised :=
  ⟨[], by simp, by simp⟩

theorem Heeds.trans
    {raised : Option Error} (h : store.Heeds store' raised) (h' : store'.Heeds store'' raised) :
    store.Heeds store'' raised := by
  obtain ⟨first, hfirst, hraised⟩ := h
  obtain ⟨second, hsecond, hraised'⟩ := h'
  refine ⟨first ++ second, by rw [hsecond, hfirst, List.append_assoc], ?_⟩
  intro attempt hmem
  rcases List.mem_append.1 hmem with hmem | hmem
  · exact hraised attempt hmem
  · exact hraised' attempt hmem

theorem Heeds.of_none (h : store.Heeds store' none) (raised : Option Error) :
    store.Heeds store' raised := by
  obtain ⟨attempts, hreads, hnone⟩ := h
  refine ⟨attempts, hreads, ?_⟩
  intro attempt hmem error houtcome hhard
  cases hnone attempt hmem error houtcome hhard

theorem Heeds.of_fallsThrough
    {error : Error} (h : store.Heeds store' (some error)) (hsoft : error.fallsThrough = true) :
    store.Heeds store' none := by
  obtain ⟨attempts, hreads, hraised⟩ := h
  refine ⟨attempts, hreads, ?_⟩
  intro attempt hmem error' houtcome hhard
  cases hraised attempt hmem error' houtcome hhard
  rw [hsoft] at hhard
  cases hhard

theorem Heeds.record
    {attempt : Attempt} {raised : Option Error} (hreads : store'.reads = store.reads)
    (h : ∀ error, attempt.outcome = .ok (.error error) → raised = some error) :
    store.Heeds (store'.record attempt) raised := by
  refine ⟨[attempt], by simp [Store.record, hreads], ?_⟩
  intro attempt' hmem error houtcome _
  rw [List.mem_singleton.1 hmem] at houtcome
  exact h error houtcome

end

/-- A run from `store` comes to what it is to come to.  A value comes with a cursor of the same
input, an error is raised after every read that met it; `shape` is the form in which the run gives
them. -/
inductive Comes {α ρ : Type} (store : Store) (i : Nat) (view : Option Content)
    (shape : Except Error (α × Cursor) → ρ) : Outcome α → Except Fault ρ × Store → Prop
  | success {value : α} {cursor : Cursor} {store' : Store} :
    store.Keeps store' → store.Heeds store' none → store'.Sees i view cursor →
      Comes store i view shape (.ok (.ok (value, cursor.position)))
        (.ok (shape (.ok (value, cursor))), store')
  | error {error : Error} {store' : Store} :
    store.Keeps store' → store.Heeds store' (some error) →
      Comes store i view shape (.ok (.error error)) (.ok (shape (.error error)), store')
  | fault {fault : Fault} {store' : Store} :
    store.Heeds store' none → Comes store i view shape (.error fault) (.error fault, store')

theorem Comes.exists_of_success
    {α ρ : Type} {store : Store} {i : Nat} {view : Option Content}
    {shape : Except Error (α × Cursor) → ρ} {value : α} {p : Position}
    {result : Except Fault ρ × Store}
    (h : store.Comes i view shape (.ok (.ok (value, p))) result) :
    ∃ cursor store', result = (.ok (shape (.ok (value, cursor))), store') ∧
      cursor.position = p ∧ store.Keeps store' ∧ store.Heeds store' none ∧
        store'.Sees i view cursor := by
  cases h with
  | @success _ cursor store' hkeeps hheeds hsees =>
      exact ⟨cursor, store', rfl, rfl, hkeeps, hheeds, hsees⟩

/-- What goes before without raising anything may be left out. -/
theorem Comes.after
    {α ρ : Type} {store store' : Store} {i : Nat} {view : Option Content}
    {shape : Except Error (α × Cursor) → ρ} {outcome : Outcome α}
    {result : Except Fault ρ × Store} (hkeeps : store.Keeps store')
    (hheeds : store.Heeds store' none) (h : store'.Comes i view shape outcome result) :
    store.Comes i view shape outcome result := by
  cases h with
  | success hkeeps' hheeds' hsees =>
      exact .success (hkeeps.trans hkeeps') (hheeds.trans hheeds') hsees
  | error hkeeps' hheeds' =>
      exact .error (hkeeps.trans hkeeps') ((hheeds.of_none _).trans hheeds')
  | fault hheeds' => exact .fault (hheeds.trans hheeds')

end Store

/-! ## What a content holds -/

theorem Ending.stop_total
    {ending : Ending} (h : ∀ conduct, ending ≠ .overclaimed conduct) (otherwise : Halt) :
    ∃ halt, ending.stop otherwise = .ok halt := by
  cases ending with
  | ended => exact ⟨otherwise, rfl⟩
  | failed failure => exact ⟨.failed failure, rfl⟩
  | overclaimed conduct => exact absurd rfl (h conduct)

namespace Content

variable {bytes : List UInt8} {content : Content} {offset : Nat}

theorem byte_within {b : UInt8} (h : content.byte offset = .ok (.ok b)) :
    offset + 1 ≤ content.bytes.length := by
  by_contra hlt
  rw [byte, List.getElem?_eq_none (by omega)] at h
  cases hstop : content.ending.stop .ended <;> simp [hstop, Except.map] at h

theorem byte_causal
    (failure : SourceFailure) (offset : Nat) (h : bytes <+: content.bytes) :
    byte ⟨bytes, .failed failure⟩ offset = .ok (.error (.failed failure)) ∨
      content.byte offset = byte ⟨bytes, .failed failure⟩ offset := by
  by_cases hlt : offset < bytes.length
  · refine Or.inr ?_
    have hget := List.prefix_iff_getElem?.1 h offset hlt
    simp only [byte, hget, List.getElem?_eq_getElem hlt]
  · refine Or.inl ?_
    simp only [byte, List.getElem?_eq_none (Nat.not_lt.1 hlt)]
    rfl

theorem byte_total
    (offset : Nat) (h : ∀ conduct, content.ending ≠ .overclaimed conduct) :
    ∃ found, content.byte offset = .ok found := by
  obtain ⟨halt, hhalt⟩ := Ending.stop_total h .ended
  rw [byte]
  cases content.bytes[offset]? with
  | some b => exact ⟨.ok b, rfl⟩
  | none => exact ⟨.error halt, by simp only [hhalt]; rfl⟩

theorem classify_of_rune {c : Char} (h : content.rune offset = .ok (.ok c)) :
    Utf8.classify (content.bytes.drop offset) = .scalar c := by
  rw [rune] at h
  cases hverdict : Utf8.classify (content.bytes.drop offset) with
  | scalar d =>
      simp only [hverdict] at h
      cases h
      rfl
  | malformed => simp [hverdict] at h
  | incomplete =>
      simp only [hverdict] at h
      generalize content.ending.stop _ = stop at h
      cases stop <;> simp [Except.map] at h

theorem rune_within {c : Char} (h : content.rune offset = .ok (.ok c)) :
    offset + c.utf8Size ≤ content.bytes.length := by
  have hfits := Utf8.utf8Size_le_length_of_classify (classify_of_rune h)
  have hpos := c.utf8Size_pos
  rw [List.length_drop] at hfits
  omega

theorem rune_causal
    (failure : SourceFailure) (offset : Nat) (h : bytes <+: content.bytes) :
    rune ⟨bytes, .failed failure⟩ offset = .ok (.error (.failed failure)) ∨
      content.rune offset = rune ⟨bytes, .failed failure⟩ offset := by
  by_cases hopen : Utf8.classify (bytes.drop offset) = .incomplete
  · refine Or.inl ?_
    simp only [rune, hopen]
    rfl
  · refine Or.inr ?_
    -- A decided sequence is not empty, so it lies within the bytes before the failure.
    have hle : offset ≤ bytes.length := by
      by_contra hlt
      rw [List.drop_eq_nil_of_le (by omega)] at hopen
      exact hopen Utf8.classify_nil
    obtain ⟨more, hmore⟩ := h
    have hsame : Utf8.classify (content.bytes.drop offset) =
        Utf8.classify (bytes.drop offset) := by
      rw [← hmore, List.drop_append_of_le_length hle, Utf8.classify_append hopen]
    simp only [rune, hsame]
    cases hverdict : Utf8.classify (bytes.drop offset) with
    | scalar c => rfl
    | malformed => rfl
    | incomplete => exact absurd hverdict hopen

theorem rune_total
    (offset : Nat) (h : ∀ conduct, content.ending ≠ .overclaimed conduct) :
    ∃ found, content.rune offset = .ok found := by
  rw [rune]
  cases Utf8.classify (content.bytes.drop offset) with
  | scalar c => exact ⟨.ok c, rfl⟩
  | malformed => exact ⟨.error .malformed, rfl⟩
  | incomplete =>
      obtain ⟨halt, hhalt⟩ := Ending.stop_total h
        (if (content.bytes.drop offset).isEmpty then .ended else .malformed)
      exact ⟨.error halt, by simp only [hhalt]; rfl⟩

end Content

namespace Reading

variable {α : Type} {r : Reading α}

/-- An account of what a reading finds in a content.  What is found lies within the content, is
decided by the bytes before a failure or is that failure, and is a fault only where the source
overclaims. -/
structure Account (r : Reading α) where
  find : Content → Nat → Except Fault (Except Halt α)
  finds : ∀ (feed : Feed) {place : Place} {offset : Nat}, feed.chain.Sound →
    feed.chain.Marks place offset →
      feed.Finds (fun unit => offset + r.width unit) (find feed.chain.content offset)
        ((r.read place).run feed)
  within : ∀ {content : Content} {offset : Nat} {unit : α},
    find content offset = .ok (.ok unit) → offset + r.width unit ≤ content.bytes.length
  causal : ∀ {bytes : List UInt8} {content : Content} (failure : SourceFailure) (offset : Nat),
    bytes <+: content.bytes →
      find ⟨bytes, .failed failure⟩ offset = .ok (.error (.failed failure)) ∨
        find content offset = find ⟨bytes, .failed failure⟩ offset
  total : ∀ {content : Content} (offset : Nat),
    (∀ conduct, content.ending ≠ .overclaimed conduct) → ∃ found, find content offset = .ok found

def Account.reference (account : r.Account) : Reference α
  | none, _ => .error .detached
  | some content, p =>
    (account.find content p.offset).map fun
      | .error halt => .error (halt.error p)
      | .ok unit => .ok (unit, p.advance (r.width unit) (r.code unit))

theorem Account.reference_total
    (account : r.Account) {content : Content} (p : Position)
    (h : ∀ conduct, content.ending ≠ .overclaimed conduct) :
    ∃ parsed, account.reference (some content) p = .ok parsed := by
  obtain ⟨found, hfound⟩ := account.total p.offset h
  exact ⟨_, by rw [reference, hfound]; rfl⟩

def Account.bytes : bytes.Account where
  find := Content.byte
  finds _ := Feed.finds_byte
  within := Content.byte_within
  causal := Content.byte_causal
  total := Content.byte_total

def Account.runes : runes.Account where
  find := Content.rune
  finds _ := Feed.finds_rune
  within := Content.rune_within
  causal := Content.rune_causal
  total := Content.rune_total

theorem Account.comes_read
    (account : r.Account) {store : Store} {i : Nat} {view : Option Content} {cursor : Cursor}
    (h : store.Sees i view cursor) :
    store.Comes i view id (account.reference view cursor.position)
      ((cursor.read r).run store) := by
  cases h with
  | @detached position =>
      refine .fault (.record rfl ?_)
      intro error houtcome
      cases houtcome
  | @attached chain place position hchain hsound hmarks =>
      have hfinds := account.finds ⟨chain, store.journal⟩ hsound hmarks
      have hlt := (Array.getElem?_eq_some_iff.1 hchain).1
      generalize hfound : account.find chain.content position.offset = found at hfinds
      generalize hread : (r.read place).run ⟨chain, store.journal⟩ = result at hfinds
      simp only [reference, hfound]
      cases hfinds with
      | @unit unit place' feed' hextends hmarks' =>
          simp only [Cursor.read, Cursor.unit, Action.run_bind, Store.onChain, hchain, hread]
          refine .success (.of_extends hchain hextends ?_) (.record ?_ ?_)
            (?_ : Store.Sees _ i _ ⟨_, position.advance (r.width unit) (r.code unit)⟩)
          · rfl
          · rfl
          · intro error houtcome
            cases houtcome
          · rw [← hextends.content]
            refine .attached ?_ hextends.sound ?_
            · exact Array.getElem?_setIfInBounds_self_of_lt hlt
            · rw [Position.offset_advance]
              exact hmarks'
      | @halt halt feed' hextends =>
          simp only [Cursor.read, Cursor.unit, Action.run_bind, Store.onChain, hchain, hread]
          refine .error (.of_extends hchain hextends rfl) (.record rfl ?_)
          intro error houtcome
          cases houtcome
          rfl
      | @fault conduct feed' hcut =>
          simp only [Cursor.read, Cursor.unit, Action.run_bind, Store.onChain, hchain, hread]
          refine .fault (.record rfl ?_)
          intro error houtcome
          cases houtcome

end Reading
end StreamParse
