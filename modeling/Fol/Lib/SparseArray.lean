/-
Fol.Lib.SparseArray — compressed arrays indexed by population count.

A sparse array of width `w` keeps a bitmap and a dense list of children: the
child of slot `c` is present when bit `c` of the bitmap is set, and it stands at
the position given by the number of set bits below `c`. Nothing here depends on
what the children are.
-/
import Fol.Lib.Chunks

namespace Fol.Lib

/-! ## §1 Population count -/

/-- Number of set bits of `n`. -/
def logcount (n : Nat) : Nat := (List.range (n.log2 + 1)).countP n.testBit

/-- Bits from `n.log2 + 1` on are clear, so any wider scan counts the same. -/
theorem logcount_eq_countP {n w : Nat} (h : n < 2 ^ w) :
    logcount n = (List.range w).countP n.testBit := by
  have tail : ∀ a k, n < 2 ^ a →
      (List.range (a + k)).countP n.testBit = (List.range a).countP n.testBit := by
    intro a k ha
    rw [List.range_add, List.countP_append]
    have hz : ((List.range k).map (a + ·)).countP n.testBit = 0 := by
      rw [List.countP_eq_zero]
      intro x hx
      obtain ⟨i, _, rfl⟩ := List.mem_map.mp hx
      have : n < 2 ^ (a + i) := Nat.lt_of_lt_of_le ha (Nat.pow_le_pow_right (by omega) (by omega))
      simp [Nat.testBit_lt_two_pow this]
    omega
  have hl : n < 2 ^ (n.log2 + 1) := Nat.lt_log2_self
  unfold logcount
  rcases Nat.le_total (n.log2 + 1) w with hle | hle
  · obtain ⟨k, rfl⟩ := Nat.exists_eq_add_of_le hle
    exact (tail _ k hl).symm
  · obtain ⟨k, hk⟩ := Nat.exists_eq_add_of_le hle
    rw [hk]
    exact tail w k h

/-! ## §2 Occupied slots -/

/-- The set bits of `b` below `w`, in ascending order. -/
def slots (w b : Nat) : List Nat := (List.range w).filter b.testBit

/-- The set bits of `b` strictly between `c` and `w`, in ascending order. -/
def slotsAbove (w c b : Nat) : List Nat := (List.range' (c + 1) (w - (c + 1))).filter b.testBit

/-- The number of set bits below `c`, read off the masked bitmap, is the
position of slot `c`. -/
theorem logcount_below (b c : Nat) : logcount (b &&& (1 <<< c - 1)) = (slots c b).length := by
  rw [Nat.one_shiftLeft, Nat.and_two_pow_sub_one_eq_mod,
    logcount_eq_countP (Nat.mod_lt _ (Nat.two_pow_pos c)), slots, List.countP_eq_length_filter]
  congr 1
  refine List.filter_congr fun i hi => ?_
  simp [Nat.testBit_mod_two_pow, List.mem_range.mp hi]

theorem and_bit_eq_zero (b c : Nat) : b &&& 1 <<< c = 0 ↔ b.testBit c = false := by
  rw [Nat.one_shiftLeft]
  constructor
  · intro h
    have := congrArg (·.testBit c) h
    simpa using this
  · intro h
    refine Nat.eq_of_testBit_eq fun i => ?_
    by_cases hi : c = i
    · subst hi; simp [h]
    · simp [hi]

theorem range_split {w c : Nat} (hc : c < w) :
    List.range w = List.range c ++ c :: List.range' (c + 1) (w - (c + 1)) := by
  have h : c + (1 + (w - (c + 1))) = w := by omega
  conv_lhs => rw [List.range_eq_range', ← h]
  rw [← List.range'_append_1, List.range_eq_range', Nat.zero_add, Nat.add_comm 1,
    List.range'_succ]

/-- The slot list around a set bit. -/
theorem slots_of_set {w b c : Nat} (hc : c < w) (hb : b.testBit c = true) :
    slots w b = slots c b ++ c :: slotsAbove w c b := by
  rw [slots, range_split hc, List.filter_append, List.filter_cons_of_pos (by simpa using hb)]
  rfl

/-- The slot list around a clear bit. -/
theorem slots_of_clear {w b c : Nat} (hc : c < w) (hb : b.testBit c = false) :
    slots w b = slots c b ++ slotsAbove w c b := by
  rw [slots, range_split hc, List.filter_append, List.filter_cons_of_neg (by simp [hb])]
  rfl

/-- Two bitmaps that agree away from `c` have the same slots on either side. -/
theorem slots_congr {c b b' : Nat} (h : ∀ i, i ≠ c → b'.testBit i = b.testBit i) :
    slots c b' = slots c b := by
  refine List.filter_congr fun i hi => ?_
  exact h i (Nat.ne_of_lt (List.mem_range.mp hi))

theorem slotsAbove_congr {w c b b' : Nat} (h : ∀ i, i ≠ c → b'.testBit i = b.testBit i) :
    slotsAbove w c b' = slotsAbove w c b := by
  refine List.filter_congr fun i hi => h i ?_
  have := (List.mem_range'_1.mp hi).1
  omega

/-- Setting bit `c`. -/
theorem slots_set {w b c : Nat} (hc : c < w) :
    slots w (b ||| 1 <<< c) = slots c b ++ c :: slotsAbove w c b := by
  have away : ∀ i, i ≠ c → (b ||| 1 <<< c).testBit i = b.testBit i := by
    intro i hi
    simp [Ne.symm hi, Nat.one_shiftLeft]
  rw [slots_of_set hc (by simp [Nat.one_shiftLeft]), slots_congr away, slotsAbove_congr away]

/-- Clear the bits of `b` in `a` (Common Lisp's `logandc2`). -/
def logandc2 (a b : Nat) : Nat := a ^^^ (a &&& b)

@[simp] theorem testBit_logandc2 (a b i : Nat) :
    (logandc2 a b).testBit i = (a.testBit i && !b.testBit i) := by
  simp only [logandc2, Nat.testBit_xor, Nat.testBit_and]
  cases a.testBit i <;> cases b.testBit i <;> rfl

/-- Clearing bit `c`. -/
theorem slots_unset {w b c : Nat} (hc : c < w) :
    slots w (logandc2 b (1 <<< c)) = slots c b ++ slotsAbove w c b := by
  have away : ∀ i, i ≠ c → (logandc2 b (1 <<< c)).testBit i = b.testBit i := by
    intro i hi
    simp [Ne.symm hi, Nat.one_shiftLeft]
  rw [slots_of_clear hc (by simp [Nat.one_shiftLeft]), slots_congr away, slotsAbove_congr away]

@[simp] theorem slots_zero (w : Nat) : slots w 0 = [] := by simp [slots]

/-- A one-bit bitmap has one slot. -/
theorem slots_single {w c : Nat} (hc : c < w) : slots w (1 <<< c) = [c] := by
  have h := slots_set (b := 0) hc
  rwa [Nat.zero_or, slots_zero, List.nil_append, slotsAbove,
    List.filter_eq_nil_iff.mpr (by simp)] at h

/-- A two-bit bitmap has its two slots in ascending order. -/
theorem slots_pair {w c d : Nat} (hcd : c < d) (hd : d < w) :
    slots w (1 <<< c ||| 1 <<< d) = [c, d] := by
  rw [slots_set hd, slots_single hcd, slotsAbove, List.filter_eq_nil_iff.mpr]
  · rfl
  · intro i hi
    have := (List.mem_range'_1.mp hi).1
    simp [Nat.one_shiftLeft, Nat.testBit_two_pow]
    omega

theorem slots_nodup (w b : Nat) : (slots w b).Nodup := List.nodup_range.filter _

theorem lt_of_mem_slots {w b c : Nat} (h : c ∈ slots w b) : c < w :=
  List.mem_range.mp (List.mem_filter.mp h).1

theorem ne_of_mem_slots_below {b c i : Nat} (h : i ∈ slots c b) : i ≠ c :=
  Nat.ne_of_lt (lt_of_mem_slots h)

theorem gt_of_mem_slotsAbove {w b c i : Nat} (h : i ∈ slotsAbove w c b) : c < i :=
  (List.mem_range'_1.mp (List.mem_filter.mp h).1).1

theorem lt_of_mem_slotsAbove {w b c i : Nat} (h : i ∈ slotsAbove w c b) : i < w := by
  have := List.mem_range'_1.mp (List.mem_filter.mp h).1
  omega

theorem ne_of_mem_slotsAbove {w b c i : Nat} (h : i ∈ slotsAbove w c b) : i ≠ c := by
  have := (List.mem_range'_1.mp (List.mem_filter.mp h).1).1
  omega

theorem or_bit_lt {w b c : Nat} (hb : b < 2 ^ w) (hc : c < w) : b ||| 1 <<< c < 2 ^ w := by
  rw [Nat.one_shiftLeft]
  exact Nat.or_lt_two_pow hb (Nat.pow_lt_pow_right (by omega) hc)

theorem logandc2_lt {w a b : Nat} (ha : a < 2 ^ w) : logandc2 a b < 2 ^ w :=
  Nat.xor_lt_two_pow ha (Nat.lt_of_le_of_lt Nat.and_le_left ha)

/-! ## §3 Children by slot -/

variable {α : Type*} {R : Nat → α → Prop}

/-- The children around an occupied slot: the child of `c` stands at the
population count of the bits below `c`. -/
theorem children_at_set {w b c : Nat} {ns : List α} (hc : c < w) (hb : b.testBit c = true)
    (h : List.Forall₂ R (slots w b) ns) :
    ∃ l x r, ns = l ++ x :: r ∧ l.length = logcount (b &&& (1 <<< c - 1)) ∧
      List.Forall₂ R (slots c b) l ∧ R c x ∧ List.Forall₂ R (slotsAbove w c b) r := by
  rw [slots_of_set hc hb] at h
  obtain ⟨l, xr, rfl, hl, hxr⟩ := forall₂_append_left.mp h
  obtain ⟨x, r, hx, hr, rfl⟩ := List.forall₂_cons_left_iff.mp hxr
  exact ⟨l, x, r, rfl, by rw [logcount_below, hl.length_eq], hl, hx, hr⟩

/-- The children around a free slot. -/
theorem children_at_clear {w b c : Nat} {ns : List α} (hc : c < w) (hb : b.testBit c = false)
    (h : List.Forall₂ R (slots w b) ns) :
    ∃ l r, ns = l ++ r ∧ l.length = logcount (b &&& (1 <<< c - 1)) ∧
      List.Forall₂ R (slots c b) l ∧ List.Forall₂ R (slotsAbove w c b) r := by
  rw [slots_of_clear hc hb] at h
  obtain ⟨l, r, rfl, hl, hr⟩ := forall₂_append_left.mp h
  exact ⟨l, r, rfl, by rw [logcount_below, hl.length_eq], hl, hr⟩

/-- A bitmap with one slot. -/
theorem eq_single_of_slots {w b c : Nat} (hb : b < 2 ^ w) (h : slots w b = [c]) : b = 1 <<< c := by
  have hmem : ∀ i, i ∈ slots w b ↔ i < w ∧ b.testBit i = true := fun i => by simp [slots]
  refine Nat.eq_of_testBit_eq fun i => ?_
  rw [Nat.one_shiftLeft, Nat.testBit_two_pow, Bool.eq_iff_iff, decide_eq_true_iff]
  constructor
  · intro hbit
    have hi : i < w := Nat.lt_of_not_le fun hle => by
      rw [Nat.testBit_lt_two_pow
        (Nat.lt_of_lt_of_le hb (Nat.pow_le_pow_right (by decide) hle))] at hbit
      cases hbit
    have hin := (hmem i).mpr ⟨hi, hbit⟩
    rw [h, List.mem_singleton] at hin
    exact hin.symm
  · rintro rfl
    exact ((hmem c).mp (by rw [h]; exact List.mem_singleton_self c)).2

/-- Children on the two sides of slot `c` with a new child in between fill the
bitmap that has bit `c` set. -/
theorem children_set {w b c : Nat} {l r : List α} {x : α} (hc : c < w)
    (hl : List.Forall₂ R (slots c b) l) (hx : R c x)
    (hr : List.Forall₂ R (slotsAbove w c b) r) :
    List.Forall₂ R (slots w (b ||| 1 <<< c)) (l ++ x :: r) := by
  rw [slots_set hc]
  exact forall₂_append_left.mpr ⟨l, x :: r, rfl, hl, .cons hx hr⟩

/-- Replacing the child of an occupied slot. -/
theorem children_replace {w b c : Nat} {l r : List α} {x : α} (hc : c < w)
    (hb : b.testBit c = true) (hl : List.Forall₂ R (slots c b) l) (hx : R c x)
    (hr : List.Forall₂ R (slotsAbove w c b) r) :
    List.Forall₂ R (slots w b) (l ++ x :: r) := by
  rw [slots_of_set hc hb]
  exact forall₂_append_left.mpr ⟨l, x :: r, rfl, hl, .cons hx hr⟩

/-- Dropping the child of slot `c`. -/
theorem children_unset {w b c : Nat} {l r : List α} (hc : c < w)
    (hl : List.Forall₂ R (slots c b) l) (hr : List.Forall₂ R (slotsAbove w c b) r) :
    List.Forall₂ R (slots w (logandc2 b (1 <<< c))) (l ++ r) := by
  rw [slots_unset hc]
  exact forall₂_append_left.mpr ⟨l, r, rfl, hl, hr⟩

end Fol.Lib
