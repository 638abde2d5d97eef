/-
Fol.Lib.Chunks — cutting a list into chunks of a fixed width.

A radix tree of width `w` reaches element `i` through its chunk `i / w` and its
place `i % w` there. This file gives the arithmetic of that: what a chunk
contains, what appending one element or setting one does to the chunks, and how
chunks of chunks compose. The last section is about the reverse reading, a list
of equally long blocks that is flattened.
-/
import Mathlib.Data.List.Forall2
import Mathlib.Tactic.Ring

namespace Fol.Lib

variable {α : Type}

/-! ## §1 Chunks -/

/-- Chunk `j` of width `w`; the last one may be shorter, later ones are empty. -/
def chunkOf (w j : Nat) (xs : List α) : List α := (xs.drop (j * w)).take w

theorem length_chunkOf (w j : Nat) (xs : List α) :
    (chunkOf w j xs).length = min w (xs.length - j * w) := by
  simp [chunkOf]

theorem getElem?_chunkOf {w k : Nat} (hk : k < w) (j : Nat) (xs : List α) :
    (chunkOf w j xs)[k]? = xs[j * w + k]? := by
  rw [chunkOf, List.getElem?_take_of_lt hk, List.getElem?_drop]

theorem getElem?_chunkOf_ge {w k : Nat} (hk : w ≤ k) (j : Nat) (xs : List α) :
    (chunkOf w j xs)[k]? = none := by
  rw [List.getElem?_eq_none_iff, length_chunkOf]
  omega

/-- Two lists have the same chunk when they agree on the places of the chunk. -/
theorem chunkOf_congr {w j : Nat} {xs ys : List α}
    (h : ∀ k, k < w → xs[j * w + k]? = ys[j * w + k]?) : chunkOf w j xs = chunkOf w j ys := by
  refine List.ext_getElem? fun k => ?_
  by_cases hk : k < w
  · rw [getElem?_chunkOf hk, getElem?_chunkOf hk, h k hk]
  · rw [getElem?_chunkOf_ge (by omega), getElem?_chunkOf_ge (by omega)]

theorem chunkOf_eq_nil_iff {w : Nat} (hw : 0 < w) (j : Nat) (xs : List α) :
    chunkOf w j xs = [] ↔ xs.length ≤ j * w := by
  rw [← List.length_eq_zero_iff, length_chunkOf]
  omega

theorem chunkOf_zero_self {w : Nat} {xs : List α} (h : xs.length ≤ w) : chunkOf w 0 xs = xs := by
  rw [chunkOf, Nat.zero_mul, List.drop_zero, List.take_of_length_le h]

/-- Place `i` lies in chunk `i / w` only. -/
theorem ne_of_div_ne {w i j k : Nat} (hk : k < w) (hj : j ≠ i / w) : j * w + k ≠ i := by
  intro h
  apply hj
  rw [← h, Nat.add_comm, Nat.add_mul_div_right _ _ (by omega), Nat.div_eq_of_lt hk, Nat.zero_add]

theorem div_mul_add_mod (w i : Nat) : i / w * w + i % w = i := by
  rw [Nat.mul_comm]
  exact Nat.div_add_mod i w

/-- Appending one element changes the chunk the list ends in. -/
theorem chunkOf_concat_same {w : Nat} (hw : 0 < w) (xs : List α) (x : α) :
    chunkOf w (xs.length / w) (xs ++ [x]) = chunkOf w (xs.length / w) xs ++ [x] := by
  have hle : xs.length / w * w ≤ xs.length := Nat.div_mul_le_self _ _
  have hlt : xs.length - xs.length / w * w < w := by
    have hmod := div_mul_add_mod w xs.length
    have := Nat.mod_lt xs.length hw
    omega
  rw [chunkOf, chunkOf, List.drop_append_of_le_length hle, List.take_of_length_le,
    List.take_of_length_le]
  · simp; omega
  · simp; omega

theorem chunkOf_concat_other {w j : Nat} (xs : List α) (x : α) (hj : j ≠ xs.length / w) :
    chunkOf w j (xs ++ [x]) = chunkOf w j xs := by
  refine chunkOf_congr fun k hk => ?_
  have hne := ne_of_div_ne hk hj
  rcases Nat.lt_or_gt_of_ne hne with h | h
  · rw [List.getElem?_append_left h]
  · rw [List.getElem?_eq_none (by simp; omega), List.getElem?_eq_none (by omega)]

theorem chunkOf_set_same {w : Nat} (i : Nat) (xs : List α) (y : α) (hw : 0 < w) :
    chunkOf w (i / w) (xs.set i y) = (chunkOf w (i / w) xs).set (i % w) y := by
  refine List.ext_getElem? fun k => ?_
  by_cases hk : k < w
  · rw [getElem?_chunkOf hk, List.getElem?_set, List.getElem?_set, getElem?_chunkOf hk,
      length_chunkOf]
    have hmod := div_mul_add_mod w i
    have hml := Nat.mod_lt i hw
    by_cases hki : i % w = k
    · have hi : i = i / w * w + k := by omega
      rw [if_pos hi, if_pos hki]
      by_cases hlen : i < xs.length
      · rw [if_pos hlen, if_pos (by omega)]
      · rw [if_neg hlen, if_neg (by omega)]
    · have hi : ¬ i = i / w * w + k := by omega
      rw [if_neg hi, if_neg hki]
  · rw [getElem?_chunkOf_ge (by omega), List.getElem?_eq_none]
    rw [List.length_set, length_chunkOf]
    omega

theorem chunkOf_set_other {w i j : Nat} (xs : List α) (y : α) (hj : j ≠ i / w) :
    chunkOf w j (xs.set i y) = chunkOf w j xs := by
  refine chunkOf_congr fun k hk => ?_
  rw [List.getElem?_set_ne (ne_of_div_ne hk hj).symm]

/-- A narrow chunk of a wide chunk is a narrow chunk of the list. -/
theorem chunkOf_chunkOf {w b i : Nat} (hi : i < b) (j : Nat) (xs : List α) :
    chunkOf w i (chunkOf (b * w) j xs) = chunkOf w (j * b + i) xs := by
  have hlt : ∀ k, k < w → i * w + k < b * w := by
    intro k hk
    calc i * w + k < i * w + w := by omega
      _ = (i + 1) * w := by ring
      _ ≤ b * w := Nat.mul_le_mul_right w hi
  refine List.ext_getElem? fun k => ?_
  by_cases hk : k < w
  · rw [getElem?_chunkOf hk, getElem?_chunkOf (hlt k hk), getElem?_chunkOf hk]
    congr 1
    ring
  · rw [getElem?_chunkOf_ge (by omega), getElem?_chunkOf_ge (by omega)]

/-! ## §2 Blocks -/

/-- Every block has width `w`. -/
def Blocks (w : Nat) (bs : List (List α)) : Prop := ∀ b ∈ bs, b.length = w

theorem Blocks.nil (w : Nat) : Blocks w ([] : List (List α)) := by
  intro b hb
  exact absurd hb List.not_mem_nil

theorem Blocks.concat {w : Nat} {bs : List (List α)} {b : List α} (h : Blocks w bs)
    (hb : b.length = w) : Blocks w (bs ++ [b]) := by
  intro c hc
  rcases List.mem_append.mp hc with hc | hc
  · exact h c hc
  · rw [List.mem_singleton.mp hc, hb]

theorem Blocks.length_flatten {w : Nat} {bs : List (List α)} (h : Blocks w bs) :
    bs.flatten.length = bs.length * w := by
  induction bs with
  | nil => simp
  | cons b bs ih =>
    rw [List.flatten_cons, List.length_append, h b List.mem_cons_self,
      ih fun c hc => h c (List.mem_cons_of_mem _ hc), List.length_cons]
    ring

/-- Element `i` of the flattened list is element `i % w` of block `i / w`. -/
theorem Blocks.getElem?_flatten {w : Nat} (hw : 0 < w) {bs : List (List α)} (h : Blocks w bs)
    (i : Nat) : bs.flatten[i]? = bs[i / w]?.bind fun b => b[i % w]? := by
  induction bs generalizing i with
  | nil => simp
  | cons b bs ih =>
    have hb : b.length = w := h b List.mem_cons_self
    have ih := ih fun c hc => h c (List.mem_cons_of_mem _ hc)
    rw [List.flatten_cons]
    by_cases hi : i < w
    · rw [List.getElem?_append_left (by omega), Nat.div_eq_of_lt hi, Nat.mod_eq_of_lt hi]
      rfl
    · obtain ⟨d, rfl⟩ : ∃ d, i = d + w := ⟨i - w, by omega⟩
      rw [List.getElem?_append_right (by omega), hb, Nat.add_sub_cancel, ih,
        Nat.add_div_right _ hw, Nat.add_mod_right, List.getElem?_cons_succ]

/-- Setting one element of one block sets that element of the flattened list. -/
theorem Blocks.flatten_set {w i : Nat} {bs : List (List α)} (h : Blocks w bs) {b : List α}
    (hb : bs[i / w]? = some b) (x : α) (hw : 0 < w) :
    (bs.set (i / w) (b.set (i % w) x)).flatten = bs.flatten.set i x := by
  induction bs generalizing i with
  | nil => simp at hb
  | cons c bs ih =>
    have hc : c.length = w := h c List.mem_cons_self
    have ih := fun i => @ih i fun d hd => h d (List.mem_cons_of_mem _ hd)
    by_cases hi : i < w
    · rw [Nat.div_eq_of_lt hi] at hb ⊢
      cases hb
      rw [Nat.mod_eq_of_lt hi, List.set_cons_zero, List.flatten_cons, List.flatten_cons,
        List.set_append_left _ _ (by omega)]
    · obtain ⟨d, rfl⟩ : ∃ d, i = d + w := ⟨i - w, by omega⟩
      rw [Nat.add_div_right _ hw] at hb ⊢
      rw [Nat.add_mod_right, List.set_cons_succ, List.flatten_cons, List.flatten_cons, ih d hb,
        List.set_append_right _ _ (by omega), hc, Nat.add_sub_cancel]

theorem Blocks.set {w i : Nat} {bs : List (List α)} (h : Blocks w bs) {b : List α}
    (hb : b.length = w) : Blocks w (bs.set i b) := by
  intro c hc
  rcases List.mem_or_eq_of_mem_set hc with hc | rfl
  · exact h c hc
  · exact hb

/-! ## §3 Pairing -/

/-- Relating an appended list splits the other list at the same place. -/
theorem forall₂_append_left {γ α : Type*} {R : γ → α → Prop} {cs ds : List γ} {ns : List α} :
    List.Forall₂ R (cs ++ ds) ns ↔
      ∃ l r, ns = l ++ r ∧ List.Forall₂ R cs l ∧ List.Forall₂ R ds r := by
  constructor
  · intro h
    refine ⟨ns.take cs.length, ns.drop cs.length, (List.take_append_drop _ _).symm, ?_, ?_⟩
    · simpa using List.forall₂_take cs.length h
    · simpa using List.forall₂_drop cs.length h
  · rintro ⟨l, r, rfl, hl, hr⟩
    exact List.rel_append hl hr

end Fol.Lib
