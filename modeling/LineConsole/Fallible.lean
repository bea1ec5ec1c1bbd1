/-!
Computations on a state that may break off with an error. What was done to the state before
the error is kept, so a computation that fails half-way can be told from one that never began.
-/
namespace LineConsole

abbrev Fallible (ε σ : Type) : Type → Type := ExceptT ε (StateM σ)

namespace Fallible

variable {ε σ τ α β : Type}

theorem pure_apply (x : α) (s : σ) : (pure x : Fallible ε σ α) s = (.ok x, s) := rfl

theorem bind_apply (a : Fallible ε σ α) (f : α → Fallible ε σ β) (s : σ) :
    (a >>= f) s = match a s with
      | (.ok x, s') => f x s'
      | (.error e, s') => (.error e, s') := by
  show (match a s with | (r, s') => ExceptT.bindCont f r s') = _
  rcases a s with ⟨_ | _, _⟩ <;> rfl

theorem map_apply (f : α → β) (a : Fallible ε σ α) (s : σ) :
    (f <$> a) s = ((a s).1.map f, (a s).2) := by
  rw [map_eq_pure_bind, bind_apply]
  rcases a s with ⟨_ | _, _⟩ <;> rfl

theorem throw_apply (e : ε) (s : σ) : (throw e : Fallible ε σ α) s = (.error e, s) := rfl

theorem get_apply (s : σ) : (get : Fallible ε σ σ) s = (.ok s, s) := rfl

theorem modify_apply (f : σ → σ) (s : σ) :
    (modify f : Fallible ε σ PUnit) s = (.ok ⟨⟩, f s) := rfl

def on (get : σ → τ) (set : τ → σ → σ) (a : Fallible ε τ α) : Fallible ε σ α := fun s =>
  ((a (get s)).1, set (a (get s)).2 s)

end Fallible

end LineConsole
