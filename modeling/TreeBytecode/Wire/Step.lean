import TreeBytecode.Wire.Failure

namespace TreeBytecode.Wire

def Step (σ α : Type) : Type := σ → Except Failure α × σ

namespace Step

variable {σ α β : Type}

def fail (f : Failure) : Step σ α := fun s ↦ (.error f, s)

def ofExcept (r : Except Failure α) : Step σ α := fun s ↦ (r, s)

def modify (f : σ → σ) : Step σ Unit := fun s ↦ (.ok (), f s)

instance : Monad (Step σ) where
  pure a := fun s ↦ (.ok a, s)
  bind p k := fun s ↦
    match p s with
    | (.ok a, t) => k a t
    | (.error f, t) => (.error f, t)

def result (p : Step σ α) (s : σ) : Except Failure α := (p s).1

theorem pure_apply (a : α) (s : σ) : (pure a : Step σ α) s = (.ok a, s) := rfl

theorem fail_apply (f : Failure) (s : σ) : (fail f : Step σ α) s = (.error f, s) := rfl

theorem modify_apply (f : σ → σ) (s : σ) : modify f s = (.ok (), f s) := rfl

theorem bind_apply (p : Step σ α) (k : α → Step σ β) (s : σ) :
    (p >>= k) s =
      match p s with
      | (.ok a, t) => k a t
      | (.error f, t) => (.error f, t) := rfl

theorem bind_of_ok {p : Step σ α} {k : α → Step σ β} {s t : σ} {a : α} (h : p s = (.ok a, t)) :
    (p >>= k) s = k a t := by
  rw [bind_apply, h]

theorem bind_of_error {p : Step σ α} {k : α → Step σ β} {s t : σ} {f : Failure}
    (h : p s = (.error f, t)) : (p >>= k) s = (.error f, t) := by
  rw [bind_apply, h]

theorem bind_eq_ok {p : Step σ α} {k : α → Step σ β} {s u : σ} {b : β} :
    (p >>= k) s = (.ok b, u) ↔ ∃ a t, p s = (.ok a, t) ∧ k a t = (.ok b, u) := by
  rw [bind_apply]
  rcases p s with ⟨f | a, t⟩
  · simp
  · constructor
    · exact fun h ↦ ⟨a, t, rfl, h⟩
    · rintro ⟨_, _, ⟨⟩, h⟩
      exact h

theorem exists_of_toOption {p : Step σ α} {s : σ} {a : α} (h : (p.result s).toOption = some a) :
    ∃ t, p s = (.ok a, t) := by
  rw [result] at h
  rcases hp : p s with ⟨f | b, t⟩
  · rw [hp] at h
    cases h
  · rw [hp] at h
    obtain rfl := Option.some.inj h
    exact ⟨t, rfl⟩

instance : LawfulMonad (Step σ) := LawfulMonad.mk' _
  (fun p ↦ by
    funext s
    change (match p s with | (.ok a, t) => (.ok a, t) | (.error f, t) => (.error f, t)) = p s
    rcases p s with ⟨_ | _, _⟩ <;> rfl)
  (fun _ _ ↦ rfl)
  (fun p k l ↦ by
    funext s
    simp only [bind_apply]
    rcases p s with ⟨_ | _, _⟩ <;> rfl)

end Step

end TreeBytecode.Wire
