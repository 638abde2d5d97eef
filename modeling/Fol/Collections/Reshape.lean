/-
Fol.Collections.Reshape — `reshape`, `flatten`, `as-array` and the row-major order of the elements.

`flatten` asks Common Lisp's `vectorp` whether it has a nested vector before it, which is false of
every FOL vector, so the value comes back as it is. A vector of rank one is its own flat list; of
any other rank `reshape` deals out the rows and `nil` behind them.
-/
import Fol.Collections.ArrayLayout

namespace Fol.Arrays

variable (clVector : Nat → Option Nat)

/-! ## §1 Functions -/

/-- `(cl:length v)` where `(vectorp v)`; some of the values that are no collection of FOL are Common
Lisp vectors. -/
def clLength : Value → Option Nat
  | .other tag => clVector tag
  | _ => none

/-- The loop of `as-array` over the dimensions, from `dim` on. It looks at the first element of the
same vector in each round. -/
def shapeLoop (nestedVec : Value) : Nat → Nat → Option (List Nat)
  | 0, _ => none
  | fuel + 1, dim =>
    if dim = 0 then some []
    else (shapeLoop nestedVec fuel (((get nestedVec 0).bind (clLength clVector)).getD 0)).map
      (dim :: ·)

/-- The first dimension. -/
def firstDim (v : Value) : Nat := if v.isVector then count v else (clLength clVector v).getD 0

/-- `as-array`; `none` where the loop does not end within the rounds. -/
def asArray (fuel : Nat) : Value → Option Value
  | .arr dimension storage => some (.arr dimension storage)
  | nestedVec => do
    let shapeList ← shapeLoop clVector nestedVec fuel (firstDim clVector nestedVec)
    return .arr shapeList (← vecToList (flatten nestedVec))

/-! ## §2 Order -/

/-- A rectangular nested vector of the dimensions, whose innermost elements are no vectors. -/
def Nested : List Nat → Value → Prop
  | [], v => v.isVector = false
  | d :: dims, v => ∃ items, v = .vec items ∧ items.length = d ∧ ∀ w ∈ items, Nested dims w

/-- The innermost elements in row-major order. -/
def rowMajor : List Nat → Value → List Value
  | _ :: dims, .vec items => items.flatMap (rowMajor dims)
  | _, v => [v]

/-- The laws of the four functions at a nested vector and a new shape. An `<array>` is the same
value as the vector of its elements. -/
structure Reshapes (dims : List Nat) (arr : Value) (newShape : List Nat) : Prop where
  flat : flatten arr = .vec (rowMajor dims arr)
  nested : ∃ fuel a v, asArray clVector fuel arr = some a ∧ asNested a = some v ∧
    v.isVector = true ∧
    vecToList v = vecToList arr
  reshaped : newShape.prod = dims.prod → ∃ v, reshape arr newShape = some v ∧ Nested newShape v ∧
    rowMajor newShape v = rowMajor dims arr ∧ reshape v dims = some arr
  rejected : newShape.prod ≠ dims.prod → reshape arr newShape = none

/-! ## §3 Laws -/

section Laws

variable {clVector} {dims newShape : List Nat} {arr : Value} {items : List Value}

theorem rowMajor_row (d : Nat) (items : List Value) : rowMajor [d] (.vec items) = items := by
  have hone : ∀ w : Value, rowMajor [] w = [w] := fun w => by cases w <;> rfl
  rw [rowMajor, funext hone, List.flatMap_singleton']

/-- What is collected is never a row. -/
theorem isVector_of_mem_rowMajor (h : Nested dims arr) {w : Value} (hw : w ∈ rowMajor dims arr) :
    w.isVector = false := by
  induction dims generalizing arr with
  | nil =>
    have hone : rowMajor [] arr = [arr] := by cases arr <;> rfl
    rw [hone, List.mem_singleton] at hw
    rw [hw]
    exact h
  | cons d dims ih =>
    obtain ⟨items, rfl, -, hitems⟩ := h
    obtain ⟨row, hrow, hw⟩ := List.mem_flatMap.mp hw
    exact ih (hitems row hrow) hw

/-- Only a vector of rank one is its own flat list. -/
theorem rank_of_flat (hpos : ∀ d ∈ dims, 0 < d) (h : Nested dims arr)
    (hflat : arr = .vec (rowMajor dims arr)) :
    dims.length = 1 := by
  cases dims with
  | nil =>
    rw [hflat] at h
    cases h
  | cons d dims =>
    cases dims with
    | nil => rfl
    | cons e dims =>
      obtain ⟨items, rfl, hlen, hitems⟩ := h
      cases items with
      | nil => exact absurd hlen (by simpa using (hpos d (by simp)).ne)
      | cons row items =>
        obtain ⟨cells, rfl, -⟩ := hitems row (by simp)
        have hmem : Value.vec cells ∈ rowMajor (d :: e :: dims) (.vec (.vec cells :: items)) := by
          rw [← Value.vec.inj hflat]
          simp
        have hn : Nested (d :: e :: dims) (.vec (.vec cells :: items)) := ⟨_, rfl, hlen, hitems⟩
        cases isVector_of_mem_rowMajor hn hmem

theorem asArray_vec (fuel : Nat) (items : List Value) : asArray clVector fuel (.vec items) =
    (shapeLoop clVector (.vec items) fuel items.length).map (.arr · items) := by
  have hdim : firstDim clVector (.vec items) = items.length := rfl
  rw [asArray, hdim, flatten, vecToList_vec]
  · cases shapeLoop clVector (.vec items) fuel items.length <;> rfl
  · simp

/-- With a Common Lisp vector that is not empty in the first place, no round is the last. -/
theorem shapeLoop_eq_none {n : Nat} (h : (get arr 0).bind (clLength clVector) = some (n + 1))
    (fuel : Nat) {dim : Nat} (hdim : dim ≠ 0) : shapeLoop clVector arr fuel dim = none := by
  induction fuel generalizing dim with
  | zero => rfl
  | succ fuel ih =>
    have hrec : shapeLoop clVector arr fuel (n + 1) = none := ih (Nat.succ_ne_zero n)
    rw [shapeLoop, if_neg hdim, h, Option.getD_some, hrec]
    rfl

theorem arraySize_row (h : ∀ w ∈ items, Nested [] w) : arraySize (.vec items) = items.length := by
  cases items with
  | nil => rfl
  | cons w items =>
    have hw : w.isVector = false := h w (by simp)
    rw [arraySize, hw]
    rfl

/-- The one row of a new shape of rank one: as many elements as the size says, from the elements of
the vector on its own level. -/
theorem reshape_row {d : Nat} (h : arraySize (.vec items) = d) :
    reshape (.vec items) [d] = vector ((List.range d).map (items.getD · .nil)) := by
  have hloop : ∀ n idx, collectTimes (nextItem items) n idx =
      some ((List.range' idx n).map (items.getD · .nil), idx + n) := by
    intro n
    induction n with
    | zero => intro idx; rfl
    | succ n ih =>
      intro idx
      rw [collectTimes, nextItem]
      simp only [Option.bind_eq_bind, Option.bind_some, ih, List.range'_succ, List.map_cons]
      rw [Nat.add_assoc, Nat.add_comm 1 n]
      rfl
  have hsize : [d].foldl (· * ·) 1 = d := Nat.one_mul d
  rw [reshape, hsize, if_neg (not_not.mpr h), flatten, vecToList_vec]
  simp only [Option.bind_eq_bind, Option.bind_some, rebuild, hloop, List.range_eq_range']
  cases vector ((List.range' 0 d).map (items.getD · .nil)) <;> rfl

theorem reshape_same (h : ∀ w ∈ items, Nested [] w) :
    reshape (.vec items) [items.length] = vector items := by
  have hall : (List.range items.length).map (items.getD · .nil) = items :=
    List.ext_getElem (by simp) fun i hi hi' => by simp [List.getElem?_eq_getElem hi']
  rw [reshape_row (arraySize_row h), hall]

/-- The new shape can only be the row itself: rows dealt out do not come back. -/
theorem rank_of_reshaped {d : Nat} (hd : 0 < d) (hitems : ∀ w ∈ items, Nested [] w)
    (hprod : newShape.prod = d) {v : Value} (hv : reshape (.vec items) newShape = some v)
    (hn : Nested newShape v) (hback : reshape v [d] = some (.vec items)) : newShape = [d] := by
  cases newShape with
  | nil =>
    have hnone : reshape (.vec items) [] = none := by
      rw [reshape, flatten, vecToList_vec]
      split <;> rfl
    rw [hnone] at hv
    cases hv
  | cons a rest =>
    cases rest with
    | nil => simpa using hprod
    | cons b rest =>
      obtain ⟨rows, rfl, hlen, hrows⟩ := hn
      have ha : 0 < a := Nat.pos_of_ne_zero fun h0 => by simp [h0] at hprod; omega
      cases rows with
      | nil => exact absurd hlen ha.ne
      | cons row rows =>
        obtain ⟨cells, rfl, -⟩ := hrows row (by simp)
        have hsize : arraySize (.vec (.vec cells :: rows)) = d := by
          by_contra hne
          rw [reshape, if_pos (by simpa using hne)] at hback
          cases hback
        obtain ⟨n, rfl⟩ := Nat.exists_eq_add_one.mpr hd
        rw [reshape_row hsize, List.range_succ_eq_map, List.map_cons,
          vector_eq_some (.inr (by simp))] at hback
        have hmem : Value.vec cells ∈ items := by
          rw [← Value.vec.inj (Option.some.inj hback)]
          simp
        cases hitems _ hmem

/-- **The laws hold** at a nested vector and a new shape exactly when the vector is of rank one, its
first element is no Common Lisp vector with elements, and a new shape of the same size is the row
itself, with no first element `:initial-element` of two. -/
theorem reshapes_iff (hpos : ∀ d ∈ dims, 0 < d) (hn : Nested dims arr) :
    Reshapes clVector dims arr newShape ↔
    dims.length = 1 ∧ (∀ n, (get arr 0).bind (clLength clVector) = some n → n = 0) ∧
      (newShape.prod = dims.prod → newShape.length = 1 ∧ ∀ y, arr ≠ .vec [.initialElement, y]) := by
  constructor
  · intro h
    have hrank := rank_of_flat hpos hn h.flat
    obtain ⟨d, rfl⟩ := List.length_eq_one_iff.mp hrank
    have hd := hpos d (by simp)
    obtain ⟨items, rfl, rfl, hitems⟩ := hn
    refine ⟨hrank, fun n hfirst => ?_, fun hprod => ?_⟩
    · obtain ⟨fuel, a, v, ha, -⟩ := h.nested
      by_contra hne
      obtain ⟨m, rfl⟩ := Nat.exists_eq_succ_of_ne_zero hne
      have hnone : shapeLoop clVector (.vec items) fuel items.length = none :=
      shapeLoop_eq_none hfirst fuel hd.ne'
      rw [asArray_vec, hnone] at ha
      cases ha
    · obtain ⟨v, hv, hnv, hsame, hback⟩ := h.reshaped hprod
      rw [List.prod_singleton] at hprod
      obtain rfl := rank_of_reshaped hd hitems hprod hv hnv hback
      refine ⟨rfl, fun y heq => ?_⟩
      obtain rfl := Value.vec.inj heq
      rw [reshape_same hitems] at hv
      obtain ⟨ws, rfl, -, hws⟩ := hnv
      rw [rowMajor_row, rowMajor_row] at hsame
      subst hsame
      cases y with
      | num n =>
        rw [vector] at hv
        split at hv
        · have hmem : Value.num n ∈ List.replicate n.toNat Value.initialElement := by
            rw [Value.vec.inj (Option.some.inj hv)]
            simp
          cases List.eq_of_mem_replicate hmem
        · cases hv
      | nil | initialElement | other | vec | arr => cases hv
  · rintro ⟨hrank, hfirst, hshape⟩
    obtain ⟨d, rfl⟩ := List.length_eq_one_iff.mp hrank
    have hd := hpos d (by simp)
    obtain ⟨items, rfl, rfl, hitems⟩ := hn
    have hrow := rowMajor_row items.length items
    refine ⟨by rw [hrow]; rfl,
      ⟨2, .arr [items.length] items, .arr [items.length] items, ?_, rfl, rfl, ?_⟩,
      fun hprod => ?_, fun hne => ?_⟩
    · have hnext : ((get (.vec items) 0).bind (clLength clVector)).getD 0 = 0 := by
        cases hlen : (get (.vec items) 0).bind (clLength clVector) with
        | none => rfl
        | some n => exact hfirst n hlen
      have hloop : shapeLoop clVector (.vec items) 2 items.length = some [items.length] := by
        rw [shapeLoop, if_neg hd.ne', hnext]
        rfl
      rw [asArray_vec, hloop]
      rfl
    · rw [vecToList_arr, vecToList_vec]
    · obtain ⟨hone, hkey⟩ := hshape hprod
      obtain ⟨e, rfl⟩ := List.length_eq_one_iff.mp hone
      obtain rfl : e = items.length := by simpa using hprod
      have hvector : vector items = some (.vec items) := by
        unfold vector
        split
        · exact absurd rfl (hkey _)
        · exact absurd rfl (hkey _)
        · rfl
      have hback : reshape (.vec items) [items.length] = some (.vec items) := by
        rw [reshape_same hitems, hvector]
      exact ⟨_, hback, ⟨_, rfl, rfl, hitems⟩, rfl, hback⟩
    · rw [List.prod_singleton] at hne
      rw [reshape, ← List.prod_eq_foldl, arraySize_row hitems, if_pos hne.symm]

end Laws

/-- The matrix of the two rows 1 2 and 3 4. -/
def square : Value := .vec [.vec [.num 1, .num 2], .vec [.num 3, .num 4]]

theorem reshapes_iff_square : Reshapes (fun _ => none) [2, 2] square [4] ↔
    [2, 2].length = 1 ∧ (∀ n, (get square 0).bind (clLength fun _ => none) = some n → n = 0) ∧
      ([4].prod = [2, 2].prod → [4].length = 1 ∧ ∀ y, square ≠ .vec [.initialElement, y]) :=
  reshapes_iff (by decide) (by simp [square, Nested, Value.isVector])

/-- `(flatten [[1 2] [3 4]])` is the matrix itself. -/
theorem reshapes_fails : ¬ Reshapes (fun _ => none) [2, 2] square [4] := by
  intro h
  have hflat := h.flat
  simp [flatten, square, rowMajor] at hflat

end Fol.Arrays
