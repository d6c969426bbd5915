/-
# Outcomes of the stages

Layout, lowering and indexing stop at the first error. These lemmas take a stage that
has succeeded apart into the steps it was made of.
-/

namespace TreeCode.Outcome

variable {ε ε' σ α β : Type}

variable {x : Except ε α} {a : α} {b : β}

/-- Both halves of a success have succeeded. -/
theorem of_bind {f : α → Except ε β} (h : (x >>= f) = .ok b) : ∃ a, x = .ok a ∧ f a = .ok b := by
  cases hx : x with
  | error e => rw [hx] at h; cases h
  | ok a => exact ⟨a, rfl, by rw [hx] at h; exact h⟩

/-- Both halves of a success that carries a state have succeeded. -/
theorem of_bindState {x : StateT σ (Except ε) α} {f : α → StateT σ (Except ε) β} {s s' : σ}
    (h : (x >>= f) s = .ok (b, s')) : ∃ a t, x s = .ok (a, t) ∧ f a t = .ok (b, s') := by
  obtain ⟨⟨a, t⟩, hx, hf⟩ := of_bind (x := x s) (f := fun p => f p.1 p.2) h
  exact ⟨a, t, hx, hf⟩

theorem of_mapError {f : ε → ε'} (h : x.mapError f = .ok a) : x = .ok a := by
  cases hx : x with
  | error e => rw [hx] at h; cases h
  | ok b => rw [hx] at h; cases h; rfl

theorem of_toOption (h : x.toOption = some a) : x = .ok a := by
  cases hx : x with
  | error e => rw [hx] at h; cases h
  | ok b => rw [hx] at h; cases h; rfl

/-- A stage that something goes on from has succeeded. -/
theorem of_toOption_bind {f : α → Option β} (h : x.toOption.bind f = some b) :
    ∃ a, x = .ok a ∧ f a = some b := by
  obtain ⟨a, ha, hb⟩ := Option.bind_eq_some_iff.1 h
  exact ⟨a, of_toOption ha, hb⟩

theorem of_toOption_map {f : α → β} (h : x.toOption.map f = some b) : ∃ a, x = .ok a ∧ f a = b := by
  obtain ⟨a, ha, hb⟩ := Option.map_eq_some_iff.1 h
  exact ⟨a, of_toOption ha, hb⟩

end TreeCode.Outcome
