import StreamParse.Proofs.Cursor.Reading
import StreamParse.Session

/-!
# Inputs at their start

The chain of a new input holds none of it, or all of it at once.  Either way it has the content of
the input, and the cursor at its start sees that content.
-/

namespace StreamParse

/-- The content of an input, if there is one. -/
def Input.content : Input → Option Content
  | .complete bytes => some ⟨bytes, .ended⟩
  | .streaming source config => some (source.content config.room)
  | .detached => none

namespace Chain

theorem sound_singleton {chunk : Chunk} (h : chunk.failure = none) (source : Option Source)
    (config : Config) : Sound ⟨#[chunk], source, config⟩ where
  nonempty := Nat.one_pos
  empty_last {k chunk'} hk _ := by
    have hlt := (Array.getElem?_eq_some_iff.1 hk).1
    exact Or.inl (by simpa using hlt)
  failure_last {k chunk'} hk hfailure := by
    obtain ⟨hlt, hchunk⟩ := Array.getElem?_eq_some_iff.1 hk
    have hzero : k = 0 := by simpa using hlt
    subst hzero
    subst hchunk
    exact absurd h hfailure

theorem marks_singleton (chunk : Chunk) (source : Option Source) (config : Config) :
    Marks ⟨#[chunk], source, config⟩ ⟨0, 0⟩ 0 :=
  ⟨⟨chunk, rfl, Nat.zero_le _⟩, rfl, fun _ => rfl⟩

theorem content_complete (bytes : List UInt8) : (complete bytes).content = ⟨bytes, .ended⟩ := by
  simp [complete, content, rest, Chunk.following, Chunk.ending, Chunk.filled, Content.prepend]

theorem content_streaming (source : Source) (config : Config) :
    (streaming source config).content = source.content config.room := by
  simp [streaming, content, rest, Chunk.following, Chunk.filled, Content.prepend]

end Chain

theorem Store.sees_insert
    (store : Store) {chunk : Chunk} (h : chunk.failure = none) (source : Option Source)
    (config : Config) :
    (store.insert ⟨#[chunk], source, config⟩).2.Sees store.chains.size
      (some (Chain.content ⟨#[chunk], source, config⟩))
      (store.insert ⟨#[chunk], source, config⟩).1 :=
  .attached (by simp [Store.insert]) (Chain.sound_singleton h source config)
    (Chain.marks_singleton chunk source config)

/-- The first cursor of an input sees its content. -/
theorem Input.sees_enter (input : Input) (store : Store) :
    (input.enter store).2.Sees store.chains.size input.content (input.enter store).1 := by
  cases input with
  | detached => exact .detached
  | complete bytes =>
      rw [Input.content, ← Chain.content_complete]
      exact store.sees_insert rfl none default
  | streaming source config =>
      rw [Input.content, ← Chain.content_streaming]
      exact store.sees_insert rfl (some source) config

@[simp] theorem Input.position_enter (input : Input) (store : Store) :
    (input.enter store).1.position = .start := by
  cases input <;> rfl

end StreamParse
