/-
Fol.Lib.Fuel — functions with a fuel, and their values with enough of it.

A run with a fuel returns `none` when the fuel is used up. Of two runs the second
extends the first when it returns the same wherever the first returns at all. A family
of runs in which every run extends the one before has a limit.
-/
import Mathlib.Data.Option.Basic

namespace Fol.Lib.Fuel

variable {α β : Type}

/-! ## §1 Extension -/

/-- `y` returns what `x` returns, if `x` returns. -/
def Extends (x y : Option α) : Prop := ∀ a, x = some a → y = some a

namespace Extends

theorem refl (x : Option α) : Extends x x := fun _ h => h

theorem trans {x y z : Option α} (hxy : Extends x y) (hyz : Extends y z) : Extends x z :=
  fun a h => hyz a (hxy a h)

theorem none (x : Option α) : Extends .none x := fun _ h => by cases h

theorem bind {x y : Option α} {f g : α → Option β} (hxy : Extends x y)
    (hfg : ∀ a, Extends (f a) (g a)) : Extends (x.bind f) (y.bind g) := by
  intro b hb
  obtain ⟨a, ha, hb⟩ := Option.bind_eq_some_iff.mp hb
  exact Option.bind_eq_some_iff.mpr ⟨a, hxy a ha, hfg a b hb⟩

theorem ite {p : Prop} [Decidable p] {x₁ x₂ y₁ y₂ : Option α} (h₁ : Extends x₁ y₁)
    (h₂ : Extends x₂ y₂) : Extends (if p then x₁ else x₂) (if p then y₁ else y₂) := by
  by_cases hp : p
  · simpa only [hp, if_true] using h₁
  · simpa only [hp, if_false] using h₂

end Extends

/-! ## §2 Limit -/

/-- What the runs of a family return once one of them returns. -/
noncomputable def limit (f : Nat → Option α) : Option α :=
  open Classical in if h : ∃ n, (f n).isSome = true then f h.choose else none

section Limit

variable {f : Nat → Option α} (hf : ∀ n, Extends (f n) (f (n + 1)))

include hf

theorem extends_of_le {m n : Nat} (h : m ≤ n) : Extends (f m) (f n) := by
  induction h with
  | refl => exact .refl _
  | step _ ih => exact ih.trans (hf _)

theorem eq_of_eq_some {m n : Nat} {a b : α} (hm : f m = some a) (hn : f n = some b) : a = b := by
  have ha := extends_of_le hf (Nat.le_max_left m n) a hm
  have hb := extends_of_le hf (Nat.le_max_right m n) b hn
  exact Option.some.inj (ha.symm.trans hb)

theorem limit_eq_some {n : Nat} {a : α} (h : f n = some a) : limit f = some a := by
  have hex : ∃ n, (f n).isSome = true := ⟨n, by rw [h]; rfl⟩
  obtain ⟨b, hb⟩ := Option.isSome_iff_exists.mp hex.choose_spec
  rw [limit, dif_pos hex, hb, eq_of_eq_some hf hb h]

omit hf in
theorem exists_of_limit_eq_some {a : α} (h : limit f = some a) : ∃ n, f n = some a := by
  unfold limit at h
  split at h
  · exact ⟨_, h⟩
  · cases h

/-- The limit extends every run. -/
theorem extends_limit (n : Nat) : Extends (f n) (limit f) := fun _ h => limit_eq_some hf h

end Limit

end Fol.Lib.Fuel
