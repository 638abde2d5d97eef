/-
Fol.Lib.Results — sequences of computations that may fail.

What has succeeded is taken apart into the parts that have succeeded; what begins with a
failure fails.
-/
import Mathlib.Tactic.TypeStar

namespace Fol.Lib

universe u v

variable {ε : Type u} {α β : Type v}

/-- A sequence succeeds where both of its parts do. -/
theorem bind_eq_ok {x : Except ε α} {k : α → Except ε β} {b : β} :
    (x >>= k) = .ok b ↔ ∃ a, x = .ok a ∧ k a = .ok b := by
  cases x <;> simp [bind, Except.bind]

/-- The last step of a sequence only puts its value together. -/
theorem bind_pure_eq_ok {x : Except ε α} {f : α → β} {b : β} :
    (do let a ← x; return f a) = Except.ok b ↔ ∃ a, x = .ok a ∧ f a = b := by
  simp [bind_eq_ok, pure, Except.pure]

end Fol.Lib
