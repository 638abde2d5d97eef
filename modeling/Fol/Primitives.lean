/-
Fol.Primitives — the constants `collection-primitives.lisp` opens with, and what
its shifts and masks compute.
-/
import Mathlib.Tactic.Ring

namespace Fol

def branchFactor : Nat := 32
def bitMask : Nat := 31
def bitShift : Nat := 5

/-- `(logand n 31)`. -/
theorem and_bitMask (n : Nat) : n &&& bitMask = n % 32 := by
  rw [bitMask, show (31 : Nat) = 2 ^ 5 - 1 from rfl, Nat.and_two_pow_sub_one_eq_mod]

/-- `(logand (ash n (- shift)) 31)`. -/
theorem shiftRight_and_bitMask (n shift : Nat) :
    (n >>> shift) &&& bitMask = n / 2 ^ shift % 32 := by
  rw [and_bitMask, Nat.shiftRight_eq_div_pow]

end Fol
