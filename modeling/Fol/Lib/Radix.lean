/-
Fol.Lib.Radix — two numberings of the index tuples of a shape.

A tuple has one index below each dimension. In mixed radix it is the number of its digits, with the
first index as the least significant digit (`lowFirst`) or as the most significant one
(`highFirst`). Both number the tuples without a gap. They are the same numbering exactly when at
most one dimension is greater than one.
-/
import Mathlib.Algebra.BigOperators.Group.List.Basic
import Mathlib.Algebra.Group.Nat.Units
import Mathlib.Tactic.Ring

namespace Fol.Lib

/-! ## §1 Numberings -/

/-- One index below each dimension. -/
def InRange (dims idx : List Nat) : Prop := List.Forall₂ (fun i d => i < d) idx dims

/-- The first index is the least significant digit. -/
@[grind =] def lowFirst : List Nat → List Nat → Nat
  | d :: dims, i :: idx => i + d * lowFirst dims idx
  | _, _ => 0

/-- The first index is the most significant digit. -/
@[grind =] def highFirst : List Nat → List Nat → Nat
  | _ :: dims, i :: idx => i * dims.prod + highFirst dims idx
  | _, _ => 0

@[simp] theorem inRange_nil {idx : List Nat} : InRange [] idx ↔ idx = [] := by
  simp [InRange]

@[simp] theorem inRange_cons {d : Nat} {dims idx : List Nat} :
    InRange (d :: dims) idx ↔ ∃ i rest, idx = i :: rest ∧ i < d ∧ InRange dims rest := by
  rw [InRange, List.forall₂_cons_right_iff]
  exact ⟨fun ⟨i, rest, hi, hrest, h⟩ => ⟨i, rest, h, hi, hrest⟩,
    fun ⟨i, rest, h, hi, hrest⟩ => ⟨i, rest, hi, hrest, h⟩⟩

theorem InRange.length_eq {dims idx : List Nat} (h : InRange dims idx) : idx.length = dims.length :=
  List.Forall₂.length_eq h

/-- The first tuple. -/
theorem inRange_zeros {dims : List Nat} (h : ∀ d ∈ dims, 0 < d) :
    InRange dims (List.replicate dims.length 0) := by
  induction dims with
  | nil => simp
  | cons d dims ih =>
    exact inRange_cons.mpr ⟨0, _, rfl, h d (by simp), ih fun e he => h e (by simp [he])⟩

@[simp] theorem lowFirst_zeros (dims : List Nat) (n : Nat) :
    lowFirst dims (List.replicate n 0) = 0 := by
  induction dims generalizing n with
  | nil => cases n <;> rfl
  | cons d dims ih =>
    cases n with
    | zero => rfl
    | succ n => simp [List.replicate_succ, lowFirst, ih]

@[simp] theorem highFirst_zeros (dims : List Nat) (n : Nat) :
    highFirst dims (List.replicate n 0) = 0 := by
  induction dims generalizing n with
  | nil => cases n <;> rfl
  | cons d dims ih =>
    cases n with
    | zero => rfl
    | succ n => simp [List.replicate_succ, highFirst, ih]

/-! ## §2 No gaps -/

theorem lowFirst_lt {dims idx : List Nat} (h : InRange dims idx) :
    lowFirst dims idx < dims.prod := by
  induction dims generalizing idx with
  | nil => simp [lowFirst]
  | cons d dims ih =>
    obtain ⟨i, rest, rfl, hi, hrest⟩ := inRange_cons.mp h
    have hrec : lowFirst dims rest + 1 ≤ dims.prod := ih hrest
    rw [lowFirst, List.prod_cons]
    calc i + d * lowFirst dims rest < d + d * lowFirst dims rest := by omega
      _ = d * (lowFirst dims rest + 1) := by ring
      _ ≤ d * dims.prod := Nat.mul_le_mul_left d hrec

theorem highFirst_lt {dims idx : List Nat} (h : InRange dims idx) :
    highFirst dims idx < dims.prod := by
  induction dims generalizing idx with
  | nil => simp [highFirst]
  | cons d dims ih =>
    obtain ⟨i, rest, rfl, hi, hrest⟩ := inRange_cons.mp h
    have hrec := ih hrest
    rw [highFirst, List.prod_cons]
    calc i * dims.prod + highFirst dims rest < i * dims.prod + dims.prod := by omega
      _ = (i + 1) * dims.prod := by ring
      _ ≤ d * dims.prod := Nat.mul_le_mul_right _ hi

theorem lowFirst_injective {dims idx idx' : List Nat} (h : InRange dims idx)
    (h' : InRange dims idx') (heq : lowFirst dims idx = lowFirst dims idx') : idx = idx' := by
  induction dims generalizing idx idx' with
  | nil => rw [inRange_nil.mp h, inRange_nil.mp h']
  | cons d dims ih =>
    obtain ⟨i, rest, rfl, hi, hrest⟩ := inRange_cons.mp h
    obtain ⟨i', rest', rfl, hi', hrest'⟩ := inRange_cons.mp h'
    rw [lowFirst, lowFirst] at heq
    have hd : 0 < d := Nat.zero_lt_of_lt hi
    have hdigit : i = i' := by
      have hmod := congrArg (· % d) heq
      simpa [Nat.add_mul_mod_self_left, Nat.mod_eq_of_lt hi, Nat.mod_eq_of_lt hi'] using hmod
    subst hdigit
    have hmul : d * lowFirst dims rest = d * lowFirst dims rest' := by omega
    rw [ih hrest hrest' (Nat.eq_of_mul_eq_mul_left hd hmul)]

theorem highFirst_injective {dims idx idx' : List Nat} (h : InRange dims idx)
    (h' : InRange dims idx') (heq : highFirst dims idx = highFirst dims idx') : idx = idx' := by
  induction dims generalizing idx idx' with
  | nil => rw [inRange_nil.mp h, inRange_nil.mp h']
  | cons d dims ih =>
    obtain ⟨i, rest, rfl, hi, hrest⟩ := inRange_cons.mp h
    obtain ⟨i', rest', rfl, hi', hrest'⟩ := inRange_cons.mp h'
    rw [highFirst, highFirst] at heq
    have hlt := highFirst_lt hrest
    have hlt' := highFirst_lt hrest'
    have hrec : highFirst dims rest = highFirst dims rest' := by
      have hmod := congrArg (· % dims.prod) heq
      simpa [Nat.mul_add_mod', Nat.mod_eq_of_lt hlt, Nat.mod_eq_of_lt hlt'] using hmod
    have hmul : i * dims.prod = i' * dims.prod := by omega
    have hpos : 0 < dims.prod := Nat.zero_lt_of_lt hlt
    rw [ih hrest hrest' hrec, Nat.eq_of_mul_eq_mul_right hpos hmul]

theorem lowFirst_surjective {dims : List Nat} {n : Nat} (h : n < dims.prod) :
    ∃ idx, InRange dims idx ∧ lowFirst dims idx = n := by
  induction dims generalizing n with
  | nil =>
    simp only [List.prod_nil, Nat.lt_one_iff] at h
    exact ⟨[], by simp, h.symm⟩
  | cons d dims ih =>
    rw [List.prod_cons] at h
    have hd : 0 < d := Nat.pos_of_mul_pos_right (Nat.zero_lt_of_lt h)
    obtain ⟨rest, hrest, heq⟩ := ih (Nat.div_lt_of_lt_mul h)
    refine ⟨n % d :: rest, inRange_cons.mpr ⟨_, _, rfl, Nat.mod_lt n hd, hrest⟩, ?_⟩
    rw [lowFirst, heq, Nat.mod_add_div]

theorem highFirst_surjective {dims : List Nat} {n : Nat} (h : n < dims.prod) :
    ∃ idx, InRange dims idx ∧ highFirst dims idx = n := by
  induction dims generalizing n with
  | nil =>
    simp only [List.prod_nil, Nat.lt_one_iff] at h
    exact ⟨[], by simp, h.symm⟩
  | cons d dims ih =>
    rw [List.prod_cons] at h
    have hpos : 0 < dims.prod := Nat.pos_of_mul_pos_left (Nat.zero_lt_of_lt h)
    obtain ⟨rest, hrest, heq⟩ := ih (Nat.mod_lt n hpos)
    refine ⟨n / dims.prod :: rest, inRange_cons.mpr ⟨_, _, rfl, ?_, hrest⟩, ?_⟩
    · exact Nat.div_lt_of_lt_mul (by rwa [Nat.mul_comm])
    · rw [highFirst, heq, Nat.div_add_mod']

/-- The tuples of a shape are numbered below the product of the dimensions, each number once. -/
theorem bijOn_lowFirst (dims : List Nat) :
    Set.BijOn (lowFirst dims) {idx | InRange dims idx} {n | n < dims.prod} :=
  ⟨fun _ h => lowFirst_lt h, fun _ h _ h' heq => lowFirst_injective h h' heq,
    fun _ h => lowFirst_surjective h⟩

theorem bijOn_highFirst (dims : List Nat) :
    Set.BijOn (highFirst dims) {idx | InRange dims idx} {n | n < dims.prod} :=
  ⟨fun _ h => highFirst_lt h, fun _ h _ h' heq => highFirst_injective h h' heq,
    fun _ h => highFirst_surjective h⟩

/-! ## §3 Agreement -/

/-- How many dimensions are greater than one. -/
def wide (dims : List Nat) : Nat := dims.countP (1 < ·)

theorem prod_eq_one_iff {dims : List Nat} (h : ∀ d ∈ dims, 0 < d) :
    dims.prod = 1 ↔ wide dims = 0 := by
  induction dims with
  | nil => simp [wide]
  | cons d dims ih =>
    have hd := h d (by simp)
    have hrec := ih fun e he => h e (by simp [he])
    simp only [wide] at hrec ⊢
    rw [List.prod_cons, mul_eq_one, hrec, List.countP_cons]
    simp only [decide_eq_true_eq]
    split <;> omega

/-- With at most one dimension greater than one, and only then, it does not matter which index is
the least significant digit. -/
theorem lowFirst_eq_highFirst_iff {dims : List Nat} (h : ∀ d ∈ dims, 0 < d) :
    (∀ idx, InRange dims idx → highFirst dims idx = lowFirst dims idx) ↔ wide dims ≤ 1 := by
  induction dims with
  | nil => simp [wide, highFirst, lowFirst]
  | cons d dims ih =>
    have hd := h d (by simp)
    have hdims : ∀ e ∈ dims, 0 < e := fun e he => h e (by simp [he])
    by_cases hone : d = 1
    · subst hone
      have hwide : wide (1 :: dims) = wide dims := by simp [wide]
      rw [hwide, ← ih hdims]
      constructor
      · intro hall idx hidx
        have hcons := hall (0 :: idx) (inRange_cons.mpr ⟨0, idx, rfl, hd, hidx⟩)
        simpa [highFirst, lowFirst] using hcons
      · intro hall idx hidx
        obtain ⟨i, rest, rfl, hi, hrest⟩ := inRange_cons.mp hidx
        obtain rfl : i = 0 := by omega
        simpa [highFirst, lowFirst] using hall rest hrest
    · have hwide : wide (d :: dims) = wide dims + 1 := by
        rw [wide, List.countP_cons_of_pos (by simp; omega), wide]
      have hzero : wide dims + 1 ≤ 1 ↔ wide dims = 0 := by omega
      rw [hwide, hzero, ← prod_eq_one_iff hdims]
      constructor
      · intro hall
        -- the tuple with a single step along the first axis
        have hstep := hall (1 :: List.replicate dims.length 0)
          (inRange_cons.mpr ⟨1, _, rfl, by omega, inRange_zeros hdims⟩)
        simpa [highFirst, lowFirst] using hstep
      · intro hprod idx hidx
        obtain ⟨i, rest, rfl, hi, hrest⟩ := inRange_cons.mp hidx
        have hlow := lowFirst_lt hrest
        have hhigh := highFirst_lt hrest
        have hlow0 : lowFirst dims rest = 0 := by omega
        have hhigh0 : highFirst dims rest = 0 := by omega
        rw [highFirst, lowFirst, hprod, hlow0, hhigh0, Nat.mul_one, Nat.mul_zero]

end Fol.Lib
