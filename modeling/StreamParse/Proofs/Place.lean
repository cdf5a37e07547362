import Mathlib.Logic.Relation
import StreamParse.Proofs.Layout
import StreamParse.Proofs.Position

/-!
# Places in different courses of reading

From one start, reading may take different courses: other cursors, other units, another order.  How
much of an input is then there differs, but not what it is cut into, since each request for more can
only make one thing of a chain.  So it makes no difference for the place of a cursor, nor for its
line, in which course of the session its offset was reached.
-/

namespace StreamParse

namespace Chain

variable {c c₁ c₂ : Chain}

/-- The one chain that a request can make of a chain that has not all chunks yet. -/
def further (c : Chain) : Chain :=
  ((Feed.next (c.chunks.size - 1)).run ⟨c, #[]⟩).2.chain

theorem next_eq_or_further (c : Chain) (k : Nat) (journal : Journal) :
    ((Feed.next k).run ⟨c, journal⟩).2.chain = c ∨
      ((Feed.next k).run ⟨c, journal⟩).2.chain = c.further := by
  have hsame : k + 1 = c.chunks.size →
      ((Feed.next k).run ⟨c, journal⟩).2.chain = c.further := by
    intro hlast
    have hnone : c.chunks[k + 1]? = none := Array.getElem?_eq_none_iff.2 (by omega)
    rw [further, ← hlast, Nat.add_sub_cancel]
    simp only [Feed.next, hnone]
    rw [if_neg (by omega), if_neg (by omega)]
    rcases c.source with _ | source
    · rfl
    · dsimp only
      rcases (source.fill c.config 0).outcome with fault | filled
      · rfl
      · rfl
  have hasked := Feed.asked_next ⟨c, journal⟩ k
  generalize (Feed.next k).run ⟨c, journal⟩ = result at hasked hsame ⊢
  cases hasked with
  | present => exact Or.inl rfl
  | beyond => exact Or.inl rfl
  | last hlast => exact Or.inr (hsame hlast)
  | dropped hlast => exact Or.inr (hsame hlast)
  | pulled hlast => exact Or.inr (hsame hlast)

/-- Requests lead from one chain to the other exactly if going further does. -/
theorem pulls_iff_reflTransGen :
    c.Pulls c₁ ↔ Relation.ReflTransGen (fun c₁ c₂ => c₂ = c₁.further) c c₁ := by
  constructor
  · intro h
    induction h with
    | refl => exact .refl
    | @next c₁ k journal _ ih =>
        rcases next_eq_or_further c₁ k journal with heq | heq
        · rwa [heq]
        · exact ih.tail heq
  · intro h
    induction h with
    | refl => exact .refl
    | @tail c₁ c₂ _ heq ih =>
        rw [heq]
        exact ih.next _ #[]

theorem Pulls.total (h₁ : c.Pulls c₁) (h₂ : c.Pulls c₂) : c₁.Pulls c₂ ∨ c₂.Pulls c₁ := by
  rw [pulls_iff_reflTransGen] at h₁ h₂
  rw [pulls_iff_reflTransGen, pulls_iff_reflTransGen]
  refine Relation.ReflTransGen.total_of_right_unique ?_ h₁ h₂
  rintro c₁ c₂ c₃ rfl rfl
  rfl

/-- A place is decided by the offset in all chains that one chain came to. -/
theorem Marks.eq_of_pulls
    (h₁ : c.Pulls c₁) (h₂ : c.Pulls c₂) {p q : Place} {offset : Nat} (hp : c₁.Marks p offset)
    (hq : c₂.Marks q offset) : p = q := by
  rcases h₁.total h₂ with hpulls | hpulls
  · exact (marks_of_isPrefix hpulls.grown.chunks hp).eq hq
  · exact hp.eq (marks_of_isPrefix hpulls.grown.chunks hq)

end Chain

namespace Session

open Store

variable {grammar : Grammar} {inputs : List (String × Input)} {i : Nat} {store store' : Store}
  {a b : Cursor}

theorem exists_start
    (hreaches : (start grammar inputs).store.Reaches store)
    (hreaches' : (start grammar inputs).store.Reaches store') {c c' : Chain}
    (hchain : store.chains[i]? = some c) (hchain' : store'.chains[i]? = some c') :
    ∃ first : Chain, first.Pulls c ∧ first.Pulls c' := by
  obtain ⟨input, first, hinput, hfirst, hpulls⟩ := exists_input hreaches hchain
  obtain ⟨input', first', hinput', hfirst', hpulls'⟩ := exists_input hreaches' hchain'
  obtain rfl : input = input' := Option.some.inj (hinput.symm.trans hinput')
  obtain rfl : first = first' := Option.some.inj (hfirst.symm.trans hfirst')
  exact ⟨first, hpulls, hpulls'⟩

/-- Cursors on one input with the same offset stand at the same place, also if they come from
different courses of the session. -/
theorem Stands.anchor_eq_of_courses
    (ha : Stands grammar inputs i store a) (hb : Stands grammar inputs i store' b)
    (hoffset : a.position.offset = b.position.offset) : a.anchor = b.anchor := by
  obtain ⟨-, view, -, -, hsees, -⟩ := ha.exists_view ha
  obtain ⟨-, view', -, -, hsees', -⟩ := hb.exists_view hb
  cases hsees with
  | attached hchain _ hmarks =>
      cases hsees' with
      | attached hchain' _ hmarks' =>
          obtain ⟨first, hpulls, hpulls'⟩ := exists_start ha.reaches hb.reaches hchain hchain'
          rw [hmarks.eq_of_pulls hpulls hpulls' (hoffset ▸ hmarks')]

theorem Stands.line_eq
    (h : Stands grammar inputs i store a) {content : Content}
    (hcontent : (Input.contents inputs)[i]? = some content) :
    a.position.line = 1 + (content.bytes.take a.position.offset).count 0x0A := by
  obtain ⟨place, hplace⟩ := h.on
  rcases exists_takes_of_known h.reaches h.known with rfl | ⟨j, content', items, hcontent', htakes⟩
  · cases hplace
  · obtain ⟨⟨place', hplace'⟩, -, -⟩ :=
      htakes.prefix_of_finds (finds_of_reaches h.reaches) hcontent'
    obtain rfl : i = j := by
      rw [hplace] at hplace'
      exact congrArg Anchor.chain (Option.some.inj hplace')
    obtain rfl : content = content' := Option.some.inj (hcontent.symm.trans hcontent')
    exact (tracks_of_takes h.reaches hcontent htakes).line

end Session
end StreamParse
