/-
Fol.Numbers.BitRotate — `bit-rotate` of bitwise-operation-functions.lisp.

The methods differ in which of their arguments are boxed; they check the width and call
`%bit-rotate`. Integers have two's complement bits without end.
-/
import Mathlib.Data.Int.Bitwise
import Mathlib.Data.Finset.Card
import Mathlib.Tactic.Ring

namespace Fol.Numbers

/-! ## §1 Rotation -/

/-- `ash`: to the left by a positive count, to the right by a negative one. -/
def ash (integer count : Int) : Int := integer <<< count

/-- `%bit-rotate`. -/
def rotated (integer count width : Int) : Int :=
  let count := count.fmod width
  let mask := ash 1 width - 1
  let val := Int.land integer mask
  if count = 0 then val else Int.land mask (Int.lor (ash val count) (ash val (count - width)))

inductive RotateError where
  | widthMustBePositive (width : Int)
deriving DecidableEq

/-- `bit-rotate`. -/
def bitRotate (integer count width : Int) : Except RotateError Int :=
  if 0 < width then .ok (rotated integer count width) else .error (.widthMustBePositive width)

/-! ## §2 Bits -/

theorem ash_ofNat (m n : Nat) : ash m n = ((m <<< n : Nat) : Int) := Int.shiftLeft_natCast m n

theorem ash_neg (m n : Nat) : ash m (-n) = ((m >>> n : Nat) : Int) := by
  rw [ash, Int.shiftLeft_neg, Int.shiftRight_natCast]

@[simp] theorem testBit_natCast (m k : Nat) : Int.testBit (m : Int) k = m.testBit k := rfl

theorem mask_eq (w : Nat) : ash 1 w - 1 = ((2 ^ w - 1 : Nat) : Int) := by
  have hone : ash 1 w = ((2 ^ w : Nat) : Int) := by
    rw [show (1 : Int) = ((1 : Nat) : Int) from rfl, ash_ofNat, Nat.one_shiftLeft]
  rw [hone, Nat.cast_sub Nat.one_le_two_pow, Nat.cast_one]

/-- What is left of an integer in the field. -/
theorem land_mask (x : Int) (w : Nat) : ∃ v : Nat, Int.land x ((2 ^ w - 1 : Nat) : Int) = v ∧
    ∀ k, v.testBit k = (x.testBit k && decide (k < w)) := by
  obtain ⟨v, hv⟩ : ∃ v : Nat, Int.land x ((2 ^ w - 1 : Nat) : Int) = v := by
    cases x with
    | ofNat m => exact ⟨m &&& (2 ^ w - 1), rfl⟩
    | negSucc m => exact ⟨Nat.ldiff (2 ^ w - 1) m, rfl⟩
  refine ⟨v, hv, fun k => ?_⟩
  rw [← testBit_natCast, ← hv, Int.testBit_land, testBit_natCast, Nat.testBit_two_pow_sub_one]

theorem index_eq {w : Nat} (hw : 0 < w) {k : Nat} (hk : k < w) (i : Int) :
    (((k : Int) - i) % w).toNat = if k < (i % w).toNat then k + (w - (i % w).toNat)
    else k - (i % w).toNat := by
  have hpos : (0 : Int) < w := by exact_mod_cast hw
  have hlow := Int.emod_nonneg i hpos.ne'
  have hhigh := Int.emod_lt_of_pos i hpos
  have hshift : ((k : Int) - i) % w = (k - i % w) % w := (Int.sub_emod_emod ..).symm
  generalize i % w = c at *
  split
  · next hlt =>
    have hin : ((k : Int) - c) % w = k - c + w := by
      rw [← Int.add_emod_right, Int.emod_eq_of_lt (by omega) (by omega)]
    omega
  · next hge =>
    have hin : ((k : Int) - c) % w = k - c := Int.emod_eq_of_lt (by omega) (by omega)
    omega

/-- The rotated integer fills the field with the bits of the field, each moved by the count. -/
theorem testBit_rotated (x i : Int) {w : Nat} (hw : 0 < w) : ∃ y : Nat, rotated x i w = y ∧
    ∀ k, y.testBit k = (decide (k < w) && x.testBit (((k : Int) - i) % w).toNat) := by
  obtain ⟨v, hv, hbits⟩ := land_mask x w
  have hpos : (0 : Int) < w := by exact_mod_cast hw
  obtain ⟨c, hc⟩ := Int.eq_ofNat_of_zero_le (Int.emod_nonneg i hpos.ne')
  have hcw : c < w := by
    have := Int.emod_lt_of_pos i hpos
    omega
  rw [rotated, Int.fmod_eq_emod_of_nonneg _ hpos.le, mask_eq, hv, hc]
  split
  · next hzero =>
    refine ⟨v, rfl, fun k => ?_⟩
    by_cases hk : k < w
    · rw [hbits, index_eq hw hk, hc]
      simp_all
    · simp [hbits, hk]
  · next hne =>
    have hsub : (c : Int) - w = -((w - c : Nat) : Int) := by omega
    rw [ash_ofNat, hsub, ash_neg]
    refine ⟨(2 ^ w - 1) &&& (v <<< c ||| v >>> (w - c)), rfl, fun k => ?_⟩
    rw [Nat.testBit_and, Nat.testBit_two_pow_sub_one, Nat.testBit_or, Nat.testBit_shiftLeft,
      Nat.testBit_shiftRight]
    by_cases hk : k < w
    · rw [index_eq hw hk, hc, Int.toNat_natCast, hbits, hbits]
      by_cases hlt : k < c
      · have hin : k + (w - c) < w := by omega
        simp [hlt, hk, hin, Nat.not_le.mpr hlt, Nat.add_comm]
      · have hout : ¬ w - c + k < w := by omega
        have hin : k - c < w := by omega
        simp [hlt, hk, hout, hin, Nat.not_lt.mp hlt]
    · simp [hk]

/-! ## §3 Result -/

/-- The set bits of the field. -/
def fieldBits (x : Int) (width : Int) : Finset Nat :=
  (Finset.range width.toNat).filter fun k => x.testBit k

theorem mem_fieldBits {x : Int} {w k : Nat} :
    k ∈ fieldBits x w ↔ k < w ∧ x.testBit k := by simp [fieldBits]

theorem index_lt {w : Nat} (hw : 0 < w) (k : Int) : (k % w).toNat < w := by
  have hpos : (0 : Int) < w := by exact_mod_cast hw
  have hlow := Int.emod_nonneg k hpos.ne'
  have hhigh := Int.emod_lt_of_pos k hpos
  omega

theorem index_index {w : Nat} (hw : 0 < w) (k i j : Int) :
    ((((k - j) % w).toNat : Int) - i) % w = (k - (i + j)) % w := by
  have hpos : (0 : Int) < w := by exact_mod_cast hw
  rw [Int.toNat_of_nonneg (Int.emod_nonneg _ hpos.ne'), Int.emod_sub_emod]
  congr 1
  ring

theorem rotated_rotated (x i j : Int) {w : Nat} (hw : 0 < w) :
    rotated (rotated x i w) j w = rotated x (i + j) w := by
  obtain ⟨y, hy, hbits⟩ := testBit_rotated x i hw
  obtain ⟨z, hz, hbits'⟩ := testBit_rotated y j hw
  obtain ⟨u, hu, hbits''⟩ := testBit_rotated x (i + j) hw
  rw [hy, hz, hu]
  congr 1
  refine Nat.eq_of_testBit_eq fun k => ?_
  rw [hbits', hbits'', testBit_natCast, hbits, index_index hw]
  simp [index_lt hw]

theorem rotated_zero {w : Nat} (hw : 0 < w) {x : Nat} (hx : x < 2 ^ w) : rotated x 0 w = x := by
  obtain ⟨y, hy, hbits⟩ := testBit_rotated x 0 hw
  rw [hy]
  congr 1
  refine Nat.eq_of_testBit_eq fun k => ?_
  rw [hbits]
  by_cases hk : k < w
  · rw [sub_zero, Int.emod_eq_of_lt (by omega) (by omega)]
    simp [hk]
  · have hfalse : x.testBit k = false :=
      Nat.testBit_lt_two_pow (hx.trans_le (Nat.pow_le_pow_right Nat.two_pos (Nat.not_lt.mp hk)))
    simp [hk, hfalse]

theorem card_fieldBits_rotated (x i : Int) {w : Nat} (hw : 0 < w) :
    (fieldBits (rotated x i w) w).card = (fieldBits x w).card := by
  obtain ⟨y, hy, hbits⟩ := testBit_rotated x i hw
  have hback : ∀ k : Nat, k < w → (((((k : Int) + i) % w).toNat : Int) - i) % w = k := by
    intro k hk
    rw [show (k : Int) + i = k - -i by ring, index_index hw,
      Int.emod_eq_of_lt (by omega) (by omega)]
    ring
  have hforth : ∀ k : Nat, k < w → ((((k : Int) - i) % w).toNat + i) % w = k := by
    intro k hk
    rw [← sub_neg_eq_add, index_index hw, Int.emod_eq_of_lt (by omega) (by omega)]
    ring
  rw [hy]
  refine Finset.card_bij' (fun k _ => (((k : Int) - i) % w).toNat)
    (fun k _ => (((k : Int) + i) % w).toNat) ?_ ?_ ?_ ?_
  · intro k hk
    rw [mem_fieldBits, testBit_natCast, hbits, Bool.and_eq_true] at hk
    exact mem_fieldBits.mpr ⟨index_lt hw _, hk.2.2⟩
  · intro k hk
    rw [mem_fieldBits] at hk ⊢
    rw [testBit_natCast, hbits, hback k hk.1]
    exact ⟨index_lt hw _, by simp [index_lt hw, hk.2]⟩
  · intro k hk
    simp only [hforth k (mem_fieldBits.mp hk).1, Int.toNat_natCast]
  · intro k hk
    simp only [hback k (mem_fieldBits.mp hk).1, Int.toNat_natCast]

/-- Bit `k` of the rotated integer is bit `k - i` of the field, rotations add up, and none loses a
bit. -/
theorem bitRotate_rotates {width : Int} (hwidth : 0 < width) (x i j : Int) :
    ∃ y, bitRotate x i width = .ok y ∧
      (∀ k : Nat, y.testBit k =
        (decide ((k : Int) < width) && x.testBit (((k : Int) - i) % width).toNat)) ∧
      bitRotate y j width = bitRotate x (i + j) width ∧
      (0 ≤ x → x < 2 ^ width.toNat → bitRotate y (-i) width = .ok x) ∧
      (fieldBits y width).card = (fieldBits x width).card := by
  obtain ⟨w, rfl⟩ := Int.eq_ofNat_of_zero_le hwidth.le
  have hw : 0 < w := by exact_mod_cast hwidth
  obtain ⟨y, hy, hbits⟩ := testBit_rotated x i hw
  have hrotate : ∀ x i, bitRotate x i w = .ok (rotated x i w) := fun x i => if_pos hwidth
  refine ⟨rotated x i w, hrotate x i, ?_, ?_, ?_, card_fieldBits_rotated x i hw⟩
  · intro k
    simpa [hy] using hbits k
  · rw [hrotate, hrotate, rotated_rotated x i j hw]
  · intro hnonneg hlt
    obtain ⟨v, rfl⟩ := Int.eq_ofNat_of_zero_le hnonneg
    rw [hrotate, rotated_rotated _ _ _ hw, add_neg_cancel, rotated_zero hw (by exact_mod_cast hlt)]

theorem bitRotate_rotates_four : ∃ y, bitRotate (-6) 1 4 = .ok y ∧
      (∀ k : Nat, y.testBit k =
        (decide ((k : Int) < 4) && (-6 : Int).testBit (((k : Int) - 1) % 4).toNat)) ∧
      bitRotate y (-2) 4 = bitRotate (-6) (1 + -2) 4 ∧
      (0 ≤ (-6 : Int) → (-6 : Int) < 2 ^ (4 : Int).toNat → bitRotate y (-1) 4 = .ok (-6)) ∧
      (fieldBits y 4).card = (fieldBits (-6) 4).card :=
  bitRotate_rotates (by decide) (-6) 1 (-2)

end Fol.Numbers
