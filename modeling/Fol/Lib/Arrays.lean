/-
Fol.Lib.Arrays — arrays of a fixed length as lists, with a copy of a range between two arrays or
within one.

An array of which the first elements are in use stands for the list of them. Copying the used
range one place to the right opens a gap for a new element; copying one place to the left closes
the gap of an old one. What lies behind the used range is not looked at.
-/
import Mathlib.Data.List.Basic

namespace Fol.Lib

variable {α : Type}

/-! ## §1 Copy -/

/-- The elements of `src` from `start2` to `end2`, copied into `arr` from `start1` on, as many as
fit; `none` where the bounds are no bounds of the arrays. The source is read before the target is
written, so `src` may be `arr`. -/
def replaceRange (arr : List α) (start1 : Nat) (src : List α) (start2 end2 : Nat) :
    Option (List α) :=
  if start2 ≤ end2 ∧ end2 ≤ src.length ∧ start1 ≤ arr.length then
    let n := min (end2 - start2) (arr.length - start1)
    some (arr.take start1 ++ ((src.drop start2).take n ++ arr.drop (start1 + n)))
  else none

/-- A copy that fits. -/
theorem replaceRange_eq {l m r src : List α} {start2 end2 : Nat} (hle : start2 ≤ end2)
    (hend : end2 ≤ src.length) (hm : m.length = end2 - start2) :
    replaceRange (l ++ (m ++ r)) l.length src start2 end2 =
      some (l ++ ((src.drop start2).take m.length ++ r)) := by
  have hmin : min (end2 - start2) ((l ++ (m ++ r)).length - l.length) = m.length := by
    simp only [List.length_append]
    omega
  have hdrop : (l ++ (m ++ r)).drop (l.length + m.length) = r := by
    rw [← List.append_assoc, ← List.length_append, List.drop_left]
  rw [replaceRange, if_pos ⟨hle, hend, by simp⟩]
  simp only [hmin, hdrop, List.take_left]

/-! ## §2 Gaps -/

/-- One place to the right, from the place of the new element on. -/
theorem replaceRange_open (l r junk : List α) (x y : α) :
    (replaceRange (l ++ (r ++ y :: junk)) (l.length + 1) (l ++ (r ++ y :: junk)) l.length
      (l.length + r.length)).map (·.set l.length x) = some (l ++ (x :: r ++ junk)) := by
  -- the target range ends where the element behind the used range stands
  obtain ⟨z, m, hz⟩ : ∃ z m, r ++ [y] = z :: m := by
    cases r with
    | nil => exact ⟨y, [], rfl⟩
    | cons z r => exact ⟨z, r ++ [y], rfl⟩
  have hm : m.length = r.length := by simpa using (congrArg List.length hz).symm
  have harr : l ++ (r ++ y :: junk) = (l ++ [z]) ++ (m ++ junk) := by
    have hjunk : r ++ y :: junk = (r ++ [y]) ++ junk := by simp
    rw [hjunk, hz]
    simp
  have hsrc : ((l ++ (r ++ y :: junk)).drop l.length).take m.length = r := by
    rw [List.drop_left, hm, List.take_left]
  have hcopy :
    replaceRange ((l ++ [z]) ++ (m ++ junk)) (l ++ [z]).length (l ++ (r ++ y :: junk)) l.length
      (l.length + r.length) = some ((l ++ [z]) ++ (r ++ junk)) := by
    rw [replaceRange_eq (by omega) (by simp) (by omega), hsrc]
  rw [List.length_append, List.length_singleton, ← harr] at hcopy
  rw [hcopy, Option.map_some, List.append_assoc, List.singleton_append]
  simp

/-- One place to the left, onto the element that goes. -/
theorem replaceRange_close (l r junk : List α) (x : α) : ∃ y,
    replaceRange (l ++ (x :: r ++ junk)) l.length (l ++ (x :: r ++ junk)) (l.length + 1)
      (l.length + 1 + r.length) = some (l ++ (r ++ y :: junk)) := by
  obtain ⟨m, y, hy⟩ : ∃ m y, x :: r = m ++ [y] := by
    rcases List.eq_nil_or_concat (x :: r) with hnil | ⟨m, y, hy⟩
    · cases hnil
    · exact ⟨m, y, by rw [hy, List.concat_eq_append]⟩
  have hm : m.length = r.length := by simpa using (congrArg List.length hy).symm
  have harr : l ++ (x :: r ++ junk) = l ++ (m ++ ([y] ++ junk)) := by rw [hy, List.append_assoc]
  have hsrc : ((l ++ (x :: r ++ junk)).drop (l.length + 1)).take m.length = r := by
    rw [← List.drop_drop, List.drop_left, hm]
    simp
  refine ⟨y, ?_⟩
  conv_lhs => arg 1; rw [harr]
  rw [replaceRange_eq (by omega) (by simp; omega) (by omega), hsrc]
  rfl

/-- There is nothing to the right of an end at 0. -/
theorem replaceRange_eq_none (arr src : List α) (start1 : Nat) {start2 end2 : Nat}
    (h : end2 < start2) :
    replaceRange arr start1 src start2 end2 = none := by
  rw [replaceRange, if_neg]
  omega

/-! ## §3 Filling -/

/-- The first elements. -/
theorem replaceRange_start {l src arr : List α} {n : Nat} (hn : n ≤ src.length)
    (hl : src.take n = l) (harr : n ≤ arr.length) :
    replaceRange arr 0 src 0 n = some (l ++ arr.drop n) := by
  have hlen : (arr.take n).length = n - 0 := by
    simp only [List.length_take]
    omega
  have hcopy := replaceRange_eq (l := []) (r := arr.drop n) (Nat.zero_le n) hn hlen
  rw [List.nil_append, List.take_append_drop, List.nil_append, List.drop_zero, hlen, Nat.sub_zero,
    hl] at hcopy
  exact hcopy

/-- All that is left. -/
theorem replaceRange_rest {l r m src : List α} {start2 end2 : Nat} (hle : start2 ≤ end2)
    (hend : end2 ≤ src.length) (hr : (src.drop start2).take (end2 - start2) = r)
    (hm : m.length = end2 - start2) :
    replaceRange (l ++ m) l.length src start2 end2 = some (l ++ r) := by
  have hcopy := replaceRange_eq (l := l) (r := []) hle hend hm
  rw [List.append_nil, List.append_nil, hm, hr] at hcopy
  exact hcopy

end Fol.Lib
