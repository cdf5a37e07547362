import StreamParse.Cursor.Traversal
import StreamParse.Proofs.Cursor.Reading

/-!
# Traversals pass over the content

A traversal byte by byte takes the bytes that its rule accepts off the front of what is left of the
content, and ends at the first other byte or where the content does.  Seeking passes over a text
that stands in the content, and every read on the way succeeds.
-/

namespace StreamParse

/-- What is to come of a traversal: what it gathers, the position where it ends, and the error that
ends it. -/
abbrev Passage (β : Type) := Except Fault (β × Position × Option Error)

/-- What is to come of reading the given bytes, and what the content ends with, as long as they are
accepted. -/
def passing {β : Type} (ending : Ending) (accepts : UInt8 → Bool) (add : β → UInt8 → β) :
    List UInt8 → β → Position → Passage β
  | [], gathered, p =>
    (ending.stop .ended).map fun halt => (gathered, p, some (halt.error p))
  | b :: rest, gathered, p =>
    if accepts b then passing ending accepts add rest (add gathered b) (p.advance 1 b.toNat)
    else .ok (gathered, p, none)

/-- What is to come of reading bytes from a position on, as long as they are accepted. -/
def Content.passage {β : Type} (accepts : UInt8 → Bool) (add : β → UInt8 → β) (start : β) :
    Option Content → Position → Passage β
  | none, _ => .error .detached
  | some content, p =>
    passing content.ending accepts add (content.bytes.drop p.offset) start p

def Position.pass (p : Position) (text : List Char) : Position :=
  text.foldl (fun p c => p.advance c.utf8Size c.toNat) p

@[simp] theorem Position.pass_nil (p : Position) : p.pass [] = p := rfl

@[simp] theorem Position.pass_cons (p : Position) (c : Char) (text : List Char) :
    p.pass (c :: text) = (p.advance c.utf8Size c.toNat).pass text := rfl

theorem Position.offset_pass (p : Position) (text : List Char) :
    (p.pass text).offset = p.offset + (Utf8.encode text).length := by
  induction text generalizing p with
  | nil => rfl
  | cons c text ih =>
      rw [pass_cons, ih, offset_advance, Utf8.encode_cons, List.length_append,
        String.length_utf8EncodeChar, Nat.add_assoc]

namespace Store

/-- A traversal from `store` comes to what it is to come to.  The error that ends it is the only
one that its reads met. -/
inductive Passes {β : Type} (store : Store) (i : Nat) (view : Option Content) :
    Passage β → Except Fault (Traversal β) × Store → Prop
  | stop {gathered : β} {cursor : Cursor} {error : Option Error} {store' : Store} :
    store.Keeps store' → store.Heeds store' error → store'.Sees i view cursor →
      Passes store i view (.ok (gathered, cursor.position, error))
        (.ok ⟨gathered, cursor, error⟩, store')
  | fault {fault : Fault} {store' : Store} :
    store.Heeds store' none → Passes store i view (.error fault) (.error fault, store')

theorem Passes.after
    {β : Type} {store store' : Store} {i : Nat} {view : Option Content} {passage : Passage β}
    {result : Except Fault (Traversal β) × Store} (hkeeps : store.Keeps store')
    (hheeds : store.Heeds store' none) (h : store'.Passes i view passage result) :
    store.Passes i view passage result := by
  cases h with
  | stop hkeeps' hheeds' hsees =>
      exact .stop (hkeeps.trans hkeeps') ((hheeds.of_none _).trans hheeds') hsees
  | fault hheeds' => exact .fault (hheeds.trans hheeds')

end Store

namespace Cursor

open Reading

variable {α β : Type} {store : Store} {i : Nat}

/-- One step of a traversal. -/
theorem traverse_eq
    (r : Reading α) (rule : TraversalRule α β) (gathered : β) (cursor : Cursor)
    (store : Store) :
    traverse r rule gathered cursor store =
      if rule.wants gathered cursor then
        match (cursor.read r).run store with
        | (.error fault, store) => (.error fault, store)
        | (.ok (.error error), store) => (.ok ⟨gathered, cursor, some error⟩, store)
        | (.ok (.ok (unit, next)), store) =>
          if rule.accepts unit then traverse r rule (rule.add gathered unit) next store
          else (.ok ⟨gathered, cursor, none⟩, store)
      else (.ok ⟨gathered, cursor, none⟩, store) := by
  rw [traverse]
  split
  · split <;> simp only [*]
  · rfl

theorem reference_bytes_of_drop
    {content : Content} {p : Position} {bytes : List UInt8}
    (h : content.bytes.drop p.offset = bytes) :
    Account.bytes.reference (some content) p =
      match bytes with
      | [] => (content.ending.stop .ended).map fun halt => .error (halt.error p)
      | b :: _ => .ok (.ok (b, p.advance 1 b.toNat)) := by
  have hget : content.bytes[p.offset]? = bytes[0]? := by
    rw [← h, List.getElem?_drop, Nat.add_zero]
  simp only [Account.reference, Account.bytes, Content.byte, hget]
  cases bytes with
  | nil =>
      simp only [List.getElem?_nil]
      cases content.ending.stop .ended <;> rfl
  | cons b rest => rfl

theorem passes_passing
    {content : Content} (accepts : UInt8 → Bool) (add : β → UInt8 → β)
    {bytes : List UInt8} {gathered : β} {cursor : Cursor}
    (hsees : store.Sees i (some content) cursor)
    (hbytes : content.bytes.drop cursor.position.offset = bytes) :
    store.Passes i (some content)
      (passing content.ending accepts add bytes gathered cursor.position)
      ((cursor.readWhile .bytes accepts add gathered).run store) := by
  induction bytes generalizing store gathered cursor with
  | nil =>
      have hread := Account.bytes.comes_read hsees
      rw [reference_bytes_of_drop hbytes] at hread
      simp only [readWhile, passing]
      rw [traverse_eq, if_pos rfl]
      generalize (cursor.read bytes).run store = result at hread ⊢
      cases hstop : content.ending.stop .ended with
      | error fault =>
          rw [hstop] at hread
          cases hread with
          | fault hheeds => exact .fault hheeds
      | ok halt =>
          rw [hstop] at hread
          cases hread with
          | error hkeeps hheeds => exact .stop hkeeps hheeds (hkeeps hsees)
  | cons b rest ih =>
      have hread := Account.bytes.comes_read hsees
      rw [reference_bytes_of_drop hbytes] at hread
      simp only [readWhile, passing]
      rw [traverse_eq, if_pos rfl]
      obtain ⟨next, store', hresult, hposition, hkeeps, hheeds, hsees'⟩ :=
        hread.exists_of_success
      simp only [hresult, id]
      by_cases haccepts : accepts b
      · rw [if_pos haccepts, if_pos haccepts, ← hposition]
        refine .after hkeeps hheeds (ih hsees' ?_)
        rw [hposition, Position.offset_advance, ← List.drop_drop, hbytes]
        rfl
      · rw [if_neg haccepts, if_neg haccepts]
        exact .stop hkeeps hheeds (hkeeps hsees)

/-- Reading bytes as long as they are accepted comes to what the content says. -/
theorem passes_readWhile
    {view : Option Content} (accepts : UInt8 → Bool) (add : β → UInt8 → β) (start : β)
    {cursor : Cursor} (hsees : store.Sees i view cursor) :
    store.Passes i view (Content.passage accepts add start view cursor.position)
      ((cursor.readWhile .bytes accepts add start).run store) := by
  cases view with
  | some content => exact passes_passing accepts add hsees rfl
  | none =>
      have hread := Account.bytes.comes_read hsees
      simp only [readWhile]
      rw [traverse_eq, if_pos rfl]
      generalize (cursor.read bytes).run store = result at hread ⊢
      cases hread with
      | fault hheeds => exact .fault hheeds

theorem reference_runes_of_isPrefix
    {content : Content} {p : Position} {c : Char}
    (h : String.utf8EncodeChar c <+: content.bytes.drop p.offset) :
    Account.runes.reference (some content) p = .ok (.ok (c, p.advance c.utf8Size c.toNat)) := by
  have hfound : content.rune p.offset = .ok (.ok c) := by
    rw [Content.rune, Utf8.classify_eq_scalar_iff.2 h]
  simp only [Account.reference, Account.runes, hfound]
  rfl

/-- Reads by one kind of unit, one after the other, give these units and lead from one cursor and
store to the other. -/
inductive Through {α : Type} (r : Reading α) : Cursor → Store → List α → Cursor → Store → Prop
  | nil {cursor : Cursor} {store : Store} : Through r cursor store [] cursor store
  | cons {cursor next last : Cursor} {store store₁ store' : Store} {unit : α} {units : List α} :
    (cursor.read r).run store = (.ok (.ok (unit, next)), store₁) →
      Through r next store₁ units last store' → Through r cursor store (unit :: units) last store'

theorem exists_of_read
    {α : Type} {r : Reading α} {cursor next : Cursor} {unit : α}
    (h : ((cursor.read r).run store).1 = .ok (.ok (unit, next))) :
    ∃ i place place', cursor.anchor = some ⟨i, place⟩ ∧
      next = ⟨some ⟨i, place'⟩, cursor.position.advance (r.width unit) (r.code unit)⟩ := by
  obtain ⟨anchor, position⟩ := cursor
  cases anchor with
  | none => cases h
  | some anchor =>
      simp only [read, Cursor.unit, Action.run_bind] at h
      rcases hrun : (Store.onChain anchor.chain (r.read anchor.place)).run store with
        ⟨fault | halt | ⟨unit', place⟩, store'⟩
      · simp [hrun] at h
      · simp [hrun] at h
      · simp only [hrun] at h
        cases h
        exact ⟨anchor.chain, anchor.place, place, rfl, rfl⟩

namespace Through

theorem position_eq_foldl
    {α : Type} {r : Reading α} {cursor last : Cursor} {store store' : Store} {units : List α}
    (h : Through r cursor store units last store') :
    last.position =
      units.foldl (fun p unit => p.advance (r.width unit) (r.code unit)) cursor.position := by
  induction h with
  | nil => rfl
  | @cons cursor next last store store₁ store' unit units hread _ ih =>
      obtain ⟨i, place, place', -, rfl⟩ := exists_of_read (congrArg Prod.fst hread)
      exact ih

theorem position_eq
    {cursor last : Cursor} {store store' : Store} {text : List Char}
    (h : Through .runes cursor store text last store') :
    last.position = cursor.position.pass text :=
  h.position_eq_foldl

theorem offset_le
    {α : Type} {r : Reading α} {cursor last : Cursor} {store store' : Store} {units : List α}
    (h : Through r cursor store units last store') :
    cursor.position.offset ≤ last.position.offset := by
  induction h with
  | nil => exact Nat.le_refl _
  | cons hread _ ih =>
      obtain ⟨i, place, place', -, rfl⟩ := exists_of_read (congrArg Prod.fst hread)
      rw [Position.offset_advance] at ih
      omega

/-- A traversal that wants every unit up to a cursor is there after reading these units. -/
theorem traverse_eq
    {r : Reading α} {rule : TraversalRule α β} {cursor last : Cursor}
    {store store' : Store} {units : List α} (h : Through r cursor store units last store')
    (hwidth : ∀ unit, 0 < r.width unit)
    (hwants : ∀ gathered mid, mid.position.offset < last.position.offset →
      rule.wants gathered mid = true)
    (haccepts : ∀ unit, rule.accepts unit = true) (gathered : β) :
    traverse r rule gathered cursor store =
      traverse r rule (units.foldl rule.add gathered) last store' := by
  induction h generalizing gathered with
  | nil => rfl
  | @cons cursor next last store store₁ store' unit units hread hrest ih =>
      have hle := hrest.offset_le
      have hpos := hwidth unit
      obtain ⟨i, place, place', -, rfl⟩ := exists_of_read (congrArg Prod.fst hread)
      rw [Position.offset_advance] at hle
      rw [Cursor.traverse_eq, if_pos (hwants gathered cursor (by omega))]
      simp only [hread, haccepts, if_true]
      exact ih hwants _

end Through

/-- Units that are found wherever their bytes stand can be read where all of their bytes do. -/
theorem exists_through_of_finds
    {α : Type} {r : Reading α} (account : r.Account) {content : Content}
    {encode : α → List UInt8} (hwidth : ∀ unit, (encode unit).length = r.width unit)
    (hfinds : ∀ {offset : Nat} {unit : α},
      encode unit <+: content.bytes.drop offset → account.find content offset = .ok (.ok unit))
    {units : List α} {cursor : Cursor} (hsees : store.Sees i (some content) cursor)
    (hunits : units.flatMap encode <+: content.bytes.drop cursor.position.offset) :
    ∃ last store', Through r cursor store units last store' ∧ store.Keeps store' ∧
      store.Heeds store' none ∧ store'.Sees i (some content) last := by
  induction units generalizing store cursor with
  | nil => exact ⟨cursor, store, .nil, .refl store, .refl store none, hsees⟩
  | cons unit units ih =>
      rw [List.flatMap_cons] at hunits
      have hread := account.comes_read hsees
      have hfound := hfinds ((List.prefix_append _ _).trans hunits)
      simp only [Account.reference, hfound, Except.map] at hread
      obtain ⟨next, store₁, hresult, hposition, hkeeps, hheeds, hsees₁⟩ :=
        hread.exists_of_success
      have hrest : units.flatMap encode <+: content.bytes.drop next.position.offset := by
        obtain ⟨more, hmore⟩ := hunits
        refine ⟨more, ?_⟩
        rw [hposition, Position.offset_advance, ← List.drop_drop, ← hmore, List.append_assoc,
          List.drop_left' (hwidth unit)]
      obtain ⟨last, store', hthrough, hkeeps', hheeds', hsees'⟩ := ih hsees₁ hrest
      exact ⟨last, store', .cons hresult hthrough, hkeeps.trans hkeeps', hheeds.trans hheeds',
        hsees'⟩

theorem exists_through
    {content : Content} {text : List Char} {cursor : Cursor}
    (hsees : store.Sees i (some content) cursor)
    (htext : Utf8.encode text <+: content.bytes.drop cursor.position.offset) :
    ∃ last store', Through .runes cursor store text last store' ∧ store.Keeps store' ∧
      store.Heeds store' none ∧ store'.Sees i (some content) last := by
  refine exists_through_of_finds .runes String.length_utf8EncodeChar ?_ hsees htext
  intro offset c hencoding
  simp only [Account.runes, Content.rune, Utf8.classify_eq_scalar_iff.2 hencoding]

theorem exists_through_bytes
    {content : Content} {bytes : List UInt8} {cursor : Cursor}
    (hsees : store.Sees i (some content) cursor)
    (hbytes : bytes <+: content.bytes.drop cursor.position.offset) :
    ∃ last store', Through .bytes cursor store bytes last store' ∧ store.Keeps store' ∧
      store.Heeds store' none ∧ store'.Sees i (some content) last := by
  have hunits : bytes.flatMap (fun b => [b]) <+: content.bytes.drop cursor.position.offset := by
    rwa [List.flatMap_singleton']
  refine exists_through_of_finds .bytes ?_ ?_ hsees hunits
  · intro b
    rfl
  · rintro offset b ⟨more, hmore⟩
    have hget : content.bytes[offset]? = some b := by
      rw [← Nat.add_zero offset, ← List.getElem?_drop, ← hmore]
      rfl
    simp only [Account.bytes, Content.byte, hget]

/-- Seeking goes on by scalar values up to the offset that it is to reach, if it comes there, and
not any further. -/
theorem Through.run_seek
    {cursor last : Cursor} {store store' : Store} {text : List Char}
    (h : Through .runes cursor store text last store') :
    (cursor.seek last.position.offset).run store = (.ok last, store') := by
  simp only [seek, Action.run_bind]
  rw [h.traverse_eq Char.utf8Size_pos (fun _ _ => decide_eq_true) (fun _ => rfl),
    Cursor.traverse_eq, if_neg (by simp)]
  rfl

end Cursor
end StreamParse
