import LineConsole.Fallible

/-!
How computations fail and how they are repeated. A computation that is put together fails in
its first part or, behind that, in its second; a call that is repeated finds the state that the
calls before it have left.
-/
namespace LineConsole.Fallible

variable {ε σ α β : Type}

/-- A sequence fails in its first part, or in its second from where the first has led. -/
theorem bind_error {a : Fallible ε σ α} {f : α → Fallible ε σ β} {s t : σ} {e : ε}
    (h : (a >>= f) s = (.error e, t)) :
    a s = (.error e, t) ∨ ∃ x u, a s = (.ok x, u) ∧ f x u = (.error e, t) := by
  rw [bind_apply] at h
  split at h
  · next x u ha => exact Or.inr ⟨x, u, ha, h⟩
  · next ha =>
    cases h
    exact Or.inl ha

theorem bind_pure_error {a : Fallible ε σ α} {f : α → β} {s t : σ} {e : ε}
    (h : (a >>= fun x => pure (f x)) s = (.error e, t)) : a s = (.error e, t) := by
  rcases bind_error h with ha | ⟨x, u, -, hpure⟩
  · exact ha
  · cases hpure

/-- What is made of a result does not touch the state. -/
theorem bind_pure_apply (a : Fallible ε σ α) (f : α → β) (s : σ) :
    (a >>= fun x => pure (f x)) s = ((a s).1.map f, (a s).2) := by
  rw [← map_eq_pure_bind, map_apply]

/-- The state after `k` calls. -/
def after (a : Fallible ε σ α) : Nat → σ → σ
  | 0, s => s
  | k + 1, s => after a k (a s).2

def answer (a : Fallible ε σ α) (k : Nat) (s : σ) : Except ε α := (a (after a k s)).1

theorem answer_zero (a : Fallible ε σ α) (s : σ) : answer a 0 s = (a s).1 := rfl

theorem answer_succ (a : Fallible ε σ α) (k : Nat) (s : σ) :
    answer a (k + 1) s = answer a k (a s).2 := rfl

theorem after_add (a : Fallible ε σ α) (j k : Nat) (s : σ) :
    after a (j + k) s = after a k (after a j s) := by
  induction j generalizing s with
  | zero => rw [Nat.zero_add, after]
  | succ j ih => rw [Nat.succ_add, after, ih, after]

theorem answer_add (a : Fallible ε σ α) (j k : Nat) (s : σ) :
    answer a (j + k) s = answer a k (after a j s) := by
  rw [answer, after_add, answer]

end LineConsole.Fallible
