import StreamParse.Error

/-!
# Actions

An action works on a state, gives a value or ends in a fault, and leaves a state behind in either
case: what it did before the fault stays done.
-/

namespace StreamParse

/-- An action on states of type `σ` with a value of type `α`. -/
structure Action (σ α : Type) where
  run : σ → Except Fault α × σ

namespace Action

variable {σ α β : Type}

@[ext] theorem ext {x y : Action σ α} (h : ∀ s, x.run s = y.run s) : x = y := by
  cases x
  cases y
  simp only [mk.injEq]
  funext s
  exact h s

@[inline] protected def pure (a : α) : Action σ α := ⟨fun s => (.ok a, s)⟩

@[inline] protected def bind (x : Action σ α) (f : α → Action σ β) : Action σ β :=
  ⟨fun s =>
    match x.run s with
    | (.ok a, s') => (f a).run s'
    | (.error fault, s') => (.error fault, s')⟩

instance : Monad (Action σ) where
  pure := Action.pure
  bind := Action.bind

@[inline] def fault (f : Fault) : Action σ α := ⟨fun s => (.error f, s)⟩

@[simp] theorem run_pure (a : α) (s : σ) : (pure a : Action σ α).run s = (.ok a, s) := rfl

theorem run_bind (x : Action σ α) (f : α → Action σ β) (s : σ) :
    (x >>= f).run s =
      match x.run s with
      | (.ok a, s') => (f a).run s'
      | (.error fault, s') => (.error fault, s') := rfl

/-- A run that gave a value has come through its first part. -/
theorem exists_of_run_bind {x : Action σ α} {f : α → Action σ β} {s s' : σ} {value : β}
    (h : (x >>= f).run s = (.ok value, s')) :
    ∃ first s₁, x.run s = (.ok first, s₁) ∧ (f first).run s₁ = (.ok value, s') := by
  rw [run_bind] at h
  rcases hx : x.run s with ⟨fault | first, s₁⟩
  · simp [hx] at h
  · rw [hx] at h
    exact ⟨first, s₁, rfl, h⟩

@[simp] theorem run_fault (f : Fault) (s : σ) :
    (fault f : Action σ α).run s = (.error f, s) := rfl

private theorem id_map (x : Action σ α) : id <$> x = x := by
  ext1 s
  change (Action.bind x (fun a => Action.pure (id a))).run s = x.run s
  simp only [Action.bind, Action.pure, id]
  rcases x.run s with ⟨_ | a, s'⟩ <;> rfl

private theorem bind_assoc {γ : Type} (x : Action σ α) (f : α → Action σ β)
    (g : β → Action σ γ) : x >>= f >>= g = x >>= fun a => f a >>= g := by
  ext1 s
  simp only [run_bind]
  rcases x.run s with ⟨_ | a, s'⟩ <;> rfl

instance : LawfulMonad (Action σ) :=
  LawfulMonad.mk' (Action σ) id_map (fun _ _ => rfl) bind_assoc

end Action
end StreamParse
