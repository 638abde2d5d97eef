/-
Fol.Collections.ArrayLayout — the index functions of `<array>` and the nesting of an array.

`%index` and `%column-major-idx` take the first index as the one that varies fastest, `%linear-idx`
the last one. `as-nested` deals the stored elements out to rows in the order in which they are
stored, so the tuple of a nested vector is read as `%linear-idx` reads it. The layouts meet where at
most one dimension is greater than one. Common Lisp's `vectorp` is false of a FOL vector.
-/
import Fol.Lib.Radix

namespace Fol.Arrays

open Lib

/-! ## §1 Indices -/

/-- The loop of `%column-major-idx`. -/
def columnMajorLoop : List Nat → List Nat → Nat → Nat → Nat
  | dim :: dimensions, index :: indices, idx, stride =>
    columnMajorLoop dimensions indices (idx + index * stride) (stride * dim)
  | _, _, idx, _ => idx

/-- `%column-major-idx`. -/
def columnMajorIdx (dimensions indices : List Nat) : Nat := columnMajorLoop dimensions indices 0 1

/-- The loop of `%index`. -/
def indexLoop : List Nat → List Int → Nat → Nat → Except String Nat
  | d :: dimensions, i :: indices, linear, stride =>
    if i < 0 then .error s!"Index {i} is not a non-negative integer"
    else if (d : Int) ≤ i then .error s!"Index {i} is out of bounds for dimension of size {d}"
    else indexLoop dimensions indices (linear + i.toNat * stride) (stride * d)
  | _, _, linear, _ => .ok linear

/-- `%index`. -/
def index (dimensions : List Nat) (indices : List Int) : Except String Nat :=
  if dimensions.length ≠ indices.length then
    .error s!"Expected {dimensions.length} indices but got {indices.length}"
  else indexLoop dimensions indices 0 1

/-- The loop of `%strides-from-shape`, from place `i - 1` down to 0. -/
def stridesLoop (shapeList : List Nat) : Nat → List Nat → List Nat
  | 0, strides => strides
  | i + 1, strides =>
    stridesLoop shapeList i (strides.set i (strides.getD (i + 1) 0 * shapeList.getD (i + 1) 0))

/-- `%strides-from-shape`. -/
def stridesFromShape (shapeList : List Nat) : List Nat :=
  stridesLoop shapeList (shapeList.length - 1) (List.replicate shapeList.length 1)

/-- `%linear-idx`. -/
def linearIdx (indices shape : List Nat) : Nat :=
  (List.zipWith (· * ·) indices (stridesFromShape shape)).foldl (· + ·) 0

/-! ## §2 Values -/

/-- Values as far as the functions below tell them apart: a `<vector>`, an `<array>`, and what can
be an element of one. `other` is a value that is no collection. -/
inductive Value where
  | nil
  | num (n : Int)
  | initialElement
  | other (tag : Nat)
  | vec (items : List Value)
  | arr (dimension : List Nat) (storage : List Value)

/-- `(apply #'vector args)`: two arguments of which the first is `:initial-element` are not two
elements, and the second of them is taken as the size. -/
def vector (args : List Value) : Option Value :=
  match args with
  | [.initialElement, .num n] =>
    if 0 ≤ n then some (.vec (List.replicate n.toNat .initialElement)) else none
  | [.initialElement, _] => none
  | _ => some (.vec args)

/-- `count`. -/
def count : Value → Nat
  | .nil => 0
  | .vec items => items.length
  | .arr _ storage => storage.length
  | _ => 1

/-- `get` with an integer and no default; `none` where there is no method. -/
def get : Value → Nat → Option Value
  | .vec items, index => some (items.getD index .nil)
  | .arr _ storage, index => some (storage.getD index .nil)
  | _, _ => none

/-- `get-slice`. -/
def getSlice : Value → List Nat → Option Value
  | arr, [] => some arr
  | arr, index :: indices => (get arr index).bind (getSlice · indices)

/-- `vec-to-list` of a vector or an array. -/
def vecToList (vec : Value) : Option (List Value) := (List.range (count vec)).mapM (get vec)

/-! ## §3 Nesting -/

/-- `flatten`: `vectorp` is false of every FOL value. -/
def flatten (arr : Value) : Value := arr

/-- Whether the value is a `<vector>`, of which `<array>` is a subclass. -/
def Value.isVector : Value → Bool
  | .vec _ => true
  | .arr _ _ => true
  | _ => false

/-- `array-size` of a vector or an array. -/
def arraySize : Value → Nat
  | .arr _ storage => storage.length
  | .vec (first :: items) =>
    if first.isVector then (items.length + 1) * arraySize first else items.length + 1
  | .vec [] => 0
  | v => count v

/-- A loop of `rebuild` that collects `n` values; the index into the flat list goes on from one to
the next. -/
def collectTimes (f : Nat → Option (Value × Nat)) : Nat → Nat → Option (List Value × Nat)
  | 0, idx => some ([], idx)
  | n + 1, idx => do
    let r ← f idx
    let rest ← collectTimes f n r.2
    return (r.1 :: rest.1, rest.2)

/-- The next element of the flat list. -/
def nextItem (flatList : List Value) (idx : Nat) : Option (Value × Nat) :=
  some (flatList.getD idx .nil, idx + 1)

/-- `rebuild`; without a dimension the bound of its loop is `nil`, which is an error. -/
def rebuild (flatList : List Value) : List Nat → Nat → Option (Value × Nat)
  | [], _ => none
  | [size], idx => do
    let items ← collectTimes (nextItem flatList) size idx
    return (← vector items.1, items.2)
  | d :: rest :: shape, idx => do
    let items ← collectTimes (rebuild flatList (rest :: shape)) d idx
    return (← vector items.1, items.2)

/-- `reshape`. -/
def reshape (arr : Value) (newShape : List Nat) : Option Value :=
  if arraySize arr ≠ newShape.foldl (· * ·) 1 then none
  else do
    let flatList ← vecToList (flatten arr)
    let r ← rebuild flatList newShape 0
    return r.1

/-- `as-nested`. -/
def asNested : Value → Option Value
  | .arr shape storage =>
    if shape.length = 1 then some (flatten (.arr shape storage))
    else reshape (flatten (.arr shape storage)) shape
  | v => some v

/-! ## §4 Indices -/

section Indices

theorem columnMajorLoop_eq (dimensions indices : List Nat) (idx stride : Nat) :
    columnMajorLoop dimensions indices idx stride = idx + stride * lowFirst dimensions indices := by
  induction dimensions generalizing indices idx stride with
  | nil => simp [columnMajorLoop, lowFirst]
  | cons d dimensions ih =>
    cases indices with
    | nil => simp [columnMajorLoop, lowFirst]
    | cons i indices =>
      rw [columnMajorLoop, ih, lowFirst]
      ring

/-- The first index varies fastest. -/
theorem columnMajorIdx_eq (dimensions indices : List Nat) :
    columnMajorIdx dimensions indices = lowFirst dimensions indices := by
  rw [columnMajorIdx, columnMajorLoop_eq, Nat.zero_add, Nat.one_mul]

theorem indexLoop_ok_iff {dimensions : List Nat} {indices : List Int}
    (hlen : dimensions.length = indices.length) (linear stride n : Nat) :
    indexLoop dimensions indices linear stride = .ok n ↔
      ∃ idx : List Nat, indices = idx.map Nat.cast ∧ InRange dimensions idx ∧
        n = linear + stride * lowFirst dimensions idx := by
  induction dimensions generalizing indices linear stride with
  | nil =>
    obtain rfl := List.length_eq_zero_iff.mp hlen.symm
    constructor
    · intro h
      cases h
      exact ⟨[], rfl, by simp, by simp [lowFirst]⟩
    · rintro ⟨idx, -, hrange, rfl⟩
      simp [indexLoop]
  | cons d dimensions ih =>
    cases indices with
    | nil => cases hlen
    | cons i indices =>
      have hrest : dimensions.length = indices.length := by simpa using hlen
      rw [indexLoop]
      by_cases hneg : i < 0
      · rw [if_pos hneg]
        constructor
        · intro h
          cases h
        · rintro ⟨idx, hidx, hrange, -⟩
          obtain ⟨j, rest, rfl, -, -⟩ := inRange_cons.mp hrange
          simp only [List.map_cons, List.cons.injEq] at hidx
          omega
      · rw [if_neg hneg]
        by_cases hbig : (d : Int) ≤ i
        · rw [if_pos hbig]
          constructor
          · intro h
            cases h
          · rintro ⟨idx, hidx, hrange, -⟩
            obtain ⟨j, rest, rfl, hj, -⟩ := inRange_cons.mp hrange
            simp only [List.map_cons, List.cons.injEq] at hidx
            omega
        · rw [if_neg hbig, ih hrest]
          constructor
          · rintro ⟨rest, rfl, hrange, rfl⟩
            refine ⟨i.toNat :: rest, ?_, inRange_cons.mpr ⟨_, _, rfl, by omega, hrange⟩, ?_⟩
            · simp only [List.map_cons, List.cons.injEq, and_true]
              omega
            · rw [lowFirst]
              ring
          · rintro ⟨idx, hidx, hrange, rfl⟩
            obtain ⟨j, rest, rfl, hj, hrange⟩ := inRange_cons.mp hrange
            simp only [List.map_cons, List.cons.injEq] at hidx
            obtain ⟨rfl, rfl⟩ := hidx
            refine ⟨rest, rfl, hrange, ?_⟩
            rw [lowFirst, Int.toNat_natCast]
            ring

/-- `%index` returns on the tuples in range, and with the first index varying fastest. -/
theorem index_ok_iff {dimensions : List Nat} {indices : List Int} {n : Nat} :
    index dimensions indices = .ok n ↔ ∃ idx : List Nat, indices = idx.map Nat.cast ∧
      InRange dimensions idx ∧ n = lowFirst dimensions idx := by
  rw [index]
  by_cases hlen : dimensions.length = indices.length
  · rw [if_neg (not_not.mpr hlen), indexLoop_ok_iff hlen]
    simp
  · rw [if_pos hlen]
    constructor
    · intro h
      cases h
    · rintro ⟨idx, rfl, hrange, -⟩
      rw [List.length_map, hrange.length_eq] at hlen
      exact absurd rfl hlen

/-- The product of the dimensions behind each one. -/
def tailProds : List Nat → List Nat
  | [] => []
  | _ :: dims => dims.prod :: tailProds dims

theorem stridesLoop_eq {shape : List Nat} {i : Nat} (hi : i < shape.length) :
    stridesLoop shape i (List.replicate i 1 ++ tailProds (shape.drop i)) = tailProds shape := by
  induction i with
  | zero => rfl
  | succ i ih =>
    obtain ⟨d, dims, hdrop⟩ : ∃ d dims, shape.drop (i + 1) = d :: dims :=
      List.exists_cons_of_ne_nil (by simpa using hi)
    have hd : shape.getD (i + 1) 0 = d := by
      have hget : (shape.drop (i + 1))[0]? = some d := by rw [hdrop]; rfl
      rw [List.getElem?_drop, Nat.add_zero] at hget
      rw [List.getD_eq_getElem?_getD, hget, Option.getD_some]
    have hstride : (List.replicate (i + 1) 1 ++ tailProds (shape.drop (i + 1))).getD (i + 1) 0 =
      dims.prod := by
      rw [List.getD_eq_getElem?_getD, List.getElem?_append_right (by simp), List.length_replicate,
        Nat.sub_self, hdrop]
      rfl
    have hprod : (shape.drop (i + 1)).prod = dims.prod * d := by
      rw [hdrop, List.prod_cons, Nat.mul_comm]
    have hset : (List.replicate (i + 1) 1 ++ tailProds (shape.drop (i + 1))).set i (dims.prod * d) =
        List.replicate i 1 ++ tailProds (shape.drop i) := by
      rw [List.drop_eq_getElem_cons (by omega : i < shape.length), tailProds, hprod,
        List.replicate_succ', List.append_assoc, List.set_append_right _ _ (by simp),
        List.length_replicate, Nat.sub_self]
      rfl
    rw [stridesLoop, hd, hstride, hset]
    exact ih (by omega)

theorem stridesFromShape_eq (shape : List Nat) : stridesFromShape shape = tailProds shape := by
  rcases List.eq_nil_or_concat shape with rfl | ⟨dims, d, rfl⟩
  · rfl
  · have hall : stridesLoop (dims.concat d) dims.length
        (List.replicate dims.length 1 ++ tailProds ((dims.concat d).drop dims.length)) =
        tailProds (dims.concat d) :=
      stridesLoop_eq (by simp)
    have hlast : (dims.concat d).drop dims.length = [d] := by simp
    rw [hlast] at hall
    rw [stridesFromShape, ← hall, List.length_concat, Nat.add_sub_cancel, List.replicate_succ']
    rfl

/-- The last index varies fastest. -/
theorem linearIdx_eq (indices shape : List Nat) :
    linearIdx indices shape = highFirst shape indices := by
  rw [linearIdx, stridesFromShape_eq, ← List.sum_eq_foldl]
  induction shape generalizing indices with
  | nil => simp [tailProds, highFirst]
  | cons d shape ih =>
    cases indices with
    | nil => simp [highFirst]
    | cons i indices => rw [tailProds, List.zipWith_cons_cons, List.sum_cons, ih, highFirst]

end Indices

/-! ## §5 Nesting -/

section Nesting

theorem vector_eq_some {args : List Value}
    (h : args.length ≠ 2 ∨ args.head? ≠ some .initialElement) :
    vector args = some (.vec args) := by
  unfold vector
  split
  · simp at h
  · simp at h
  · rfl

/-- What each round returns, and where it starts to read. -/
theorem collectTimes_spec {f : Nat → Option (Value × Nat)} {p : Nat} {Q : Nat → Value → Prop}
    (hf : ∀ idx, ∃ v, f idx = some (v, idx + p) ∧ Q idx v) (n idx : Nat) :
    ∃ vs, collectTimes f n idx = some (vs, idx + n * p) ∧ vs.length = n ∧
      ∀ j < n, ∃ v, vs[j]? = some v ∧ Q (idx + j * p) v := by
  induction n generalizing idx with
  | zero => exact ⟨[], by simp [collectTimes], rfl, fun j hj => absurd hj (Nat.not_lt_zero j)⟩
  | succ n ih =>
    obtain ⟨v, hv, hQ⟩ := hf idx
    obtain ⟨vs, hvs, hlen, hall⟩ := ih (idx + p)
    have hend : idx + p + n * p = idx + (n + 1) * p := by ring
    refine ⟨v :: vs, ?_, by simp [hlen], ?_⟩
    · rw [collectTimes, hv]
      simp only [Option.bind_eq_bind, Option.bind_some, hvs, hend]
      rfl
    · intro j hj
      cases j with
      | zero => exact ⟨v, rfl, by simpa using hQ⟩
      | succ j =>
        obtain ⟨w, hw, hQw⟩ := hall j (by omega)
        have hat : idx + p + j * p = idx + (j + 1) * p := by ring
        rw [hat] at hQw
        exact ⟨w, by simpa using hw, hQw⟩

/-- The rebuilt value holds the elements in the order of the flat list, the last index varying
fastest, unless its rows are of two elements. -/
theorem rebuild_spec {flatList : List Value} {shape : List Nat} (hne : shape ≠ [])
    (hlast : shape.getLast? ≠ some 2) (idx : Nat) :
    ∃ items, rebuild flatList shape idx = some (.vec items, idx + shape.prod) ∧
      ∀ t, InRange shape t →
      getSlice (.vec items) t = some (flatList.getD (idx + highFirst shape t) .nil) := by
  induction shape generalizing idx with
  | nil => exact absurd rfl hne
  | cons d shape ih =>
    cases shape with
    | nil =>
      have hitem : ∀ i, ∃ v, nextItem flatList i = some (v, i + 1) ∧ v = flatList.getD i .nil :=
        fun i => ⟨_, rfl, rfl⟩
      obtain ⟨vs, hvs, hlen, hall⟩ := collectTimes_spec hitem d idx
      have hvector : vector vs = some (.vec vs) :=
        vector_eq_some (.inl (by simpa [hlen] using hlast))
      refine ⟨vs, ?_, ?_⟩
      · rw [rebuild, hvs]
        simp only [Option.bind_eq_bind, Option.bind_some, hvector]
        simp
      · intro t ht
        obtain ⟨j, rest, rfl, hj, hrest⟩ := inRange_cons.mp ht
        obtain rfl := inRange_nil.mp hrest
        obtain ⟨v, hv, rfl⟩ := hall j hj
        simp [getSlice, get, highFirst, hv, List.getD_eq_getElem?_getD]
    | cons e shape =>
      have hrow : ∀ i, ∃ v, rebuild flatList (e :: shape) i = some (v, i + (e :: shape).prod) ∧
          ∃ items, v = .vec items ∧ ∀ t, InRange (e :: shape) t →
            getSlice (.vec items) t = some (flatList.getD (i + highFirst (e :: shape) t) .nil) := by
        intro i
        obtain ⟨items, hitems, hslice⟩ := ih (List.cons_ne_nil _ _) (by simpa using hlast) i
        exact ⟨_, hitems, items, rfl, hslice⟩
      obtain ⟨vs, hvs, hlen, hall⟩ := collectTimes_spec hrow d idx
      have hhead : vs.head? ≠ some .initialElement := by
        intro hkey
        have hpos : 0 < vs.length := by
          cases vs with
          | nil => cases hkey
          | cons v vs => simp
        obtain ⟨v, hv, items, rfl, -⟩ := hall 0 (by omega)
        rw [List.head?_eq_getElem?, hv] at hkey
        cases hkey
      have hprod : (d :: e :: shape).prod = d * (e :: shape).prod := List.prod_cons
      refine ⟨vs, ?_, ?_⟩
      · rw [rebuild, hvs, hprod]
        simp only [Option.bind_eq_bind, Option.bind_some, vector_eq_some (.inr hhead)]
        rfl
      · intro t ht
        obtain ⟨j, rest, rfl, hj, hrest⟩ := inRange_cons.mp ht
        obtain ⟨v, hv, items, rfl, hslice⟩ := hall j hj
        have hget : get (.vec vs) j = some (.vec items) := by
          rw [get, List.getD_eq_getElem?_getD, hv, Option.getD_some]
        rw [getSlice, hget, Option.bind_some, hslice rest hrest, highFirst, Nat.add_assoc]

/-- A first row of two elements that starts with `:initial-element` is no row. -/
theorem rebuild_eq_none {flatList : List Value} {shape : List Nat} (hpos : ∀ d ∈ shape, 0 < d)
    (hlast : shape.getLast? = some 2) {idx : Nat} (hkey : flatList.getD idx .nil = .initialElement)
    (hnext : flatList.getD (idx + 1) .nil = .nil) : rebuild flatList shape idx = none := by
  induction shape with
  | nil => cases hlast
  | cons d shape ih =>
    cases shape with
    | nil =>
      obtain rfl : d = 2 := by simpa using hlast
      have hitems :
        collectTimes (nextItem flatList) 2 idx = some ([.initialElement, .nil], idx + 1 + 1) := by
        simp only [collectTimes, nextItem, hkey, hnext, Option.bind_eq_bind, Option.bind_some]
        rfl
      rw [rebuild, hitems]
      rfl
    | cons e shape =>
      have hrec := ih (fun c hc => hpos c (by simp [hc])) (by simpa using hlast)
      obtain ⟨n, rfl⟩ := Nat.exists_eq_add_one.mpr (hpos d (by simp))
      rw [rebuild, collectTimes, hrec]
      rfl

theorem vecToList_eq {v : Value} {items : List Value} (hcount : count v = items.length)
    (hget : get v = fun i => some (items.getD i .nil)) : vecToList v = some items := by
  have hall : (List.range items.length).map (fun i => items.getD i .nil) = items := by
    refine List.ext_getElem (by simp) fun i hi hi' => ?_
    simp [List.getElem?_eq_getElem hi']
  have hmap : ∀ (g : Nat → Value) (xs : List Nat),
    xs.mapM (fun i => some (g i)) = some (xs.map g) := by
    intro g xs
    induction xs with
    | nil => rfl
    | cons x xs ih =>
      rw [List.mapM_cons, ih]
      rfl
  rw [vecToList, hcount, hget, hmap, hall]

theorem vecToList_arr (shape : List Nat) (storage : List Value) :
    vecToList (.arr shape storage) = some storage :=
  vecToList_eq rfl rfl

theorem vecToList_vec (items : List Value) :
    vecToList (.vec items) = some items := vecToList_eq rfl rfl

/-- The array has an element for each tuple of its shape. -/
def Filled (shape : List Nat) (storage : List Value) : Prop := storage.length = shape.prod

theorem reshape_arr {shape : List Nat} {storage : List Value} (h : Filled shape storage) :
    reshape (.arr shape storage) shape = (rebuild storage shape 0).map (·.1) := by
  have hprod : shape.foldl (· * ·) 1 = storage.length := by rw [← List.prod_eq_foldl, h]
  rw [reshape, if_neg (by rw [arraySize, hprod]; simp), flatten, vecToList_arr]
  simp only [Option.bind_eq_bind, Option.bind_some]
  cases rebuild storage shape 0 <;> rfl

/-- The nested vector of an array, from two dimensions on. -/
theorem asNested_rows {shape : List Nat} {storage : List Value} (h : Filled shape storage)
    (hrank : 2 ≤ shape.length) (hlast : shape.getLast? ≠ some 2) :
    ∃ v, asNested (.arr shape storage) = some v ∧
      ∀ t, InRange shape t → getSlice v t = storage[highFirst shape t]? := by
  have hne : shape ≠ [] := List.ne_nil_of_length_pos (by omega)
  obtain ⟨items, hitems, hslice⟩ := rebuild_spec hne hlast 0
  refine ⟨.vec items, ?_, ?_⟩
  · rw [asNested, if_neg (by omega), flatten, reshape_arr h, hitems]
    rfl
  · intro t ht
    have hlt : highFirst shape t < storage.length := by
      rw [h]
      exact highFirst_lt ht
    rw [hslice t ht, Nat.zero_add, List.getD_eq_getElem?_getD, List.getElem?_eq_getElem hlt]
    rfl

end Nesting

/-! ## §6 Layout -/

section Layout

/-- A shape has one layout: each index function numbers the tuples without a gap, they agree, and
the nested vector of an array has each element at its tuple. -/
structure OneLayout (shape : List Nat) : Prop where
  column : Set.BijOn (columnMajorIdx shape) {idx | InRange shape idx} {n | n < shape.prod}
  linear : Set.BijOn (linearIdx · shape) {idx | InRange shape idx} {n | n < shape.prod}
  index : ∀ idx, InRange shape idx → index shape (idx.map Nat.cast) = .ok (columnMajorIdx shape idx)
  agree : ∀ idx, InRange shape idx → linearIdx idx shape = columnMajorIdx shape idx
  nested : ∀ storage, Filled shape storage → ∀ idx, InRange shape idx →
    (asNested (.arr shape storage)).bind (getSlice · idx) = storage[columnMajorIdx shape idx]?

theorem exists_filled {shape : List Nat} (v : Value) (h : ∀ d ∈ shape, 0 < d) :
    ∃ rest, Filled shape (v :: rest) ∧ ∀ w ∈ rest, w = .nil := by
  have hpos : 0 < shape.prod := Nat.zero_lt_of_lt (lowFirst_lt (inRange_zeros h))
  refine ⟨List.replicate (shape.prod - 1) .nil, ?_, fun w hw => List.eq_of_mem_replicate hw⟩
  rw [Filled, List.length_cons, List.length_replicate]
  omega

/-- A shape has one layout exactly when it is of rank one, or when it has no more than one dimension
greater than one and its rows are not of two elements. -/
theorem oneLayout_iff {shape : List Nat} (hpos : ∀ d ∈ shape, 0 < d) :
    OneLayout shape ↔ shape.length = 1 ∨
    (2 ≤ shape.length ∧ wide shape ≤ 1 ∧ shape.getLast? ≠ some 2) := by
  constructor
  · intro h
    have hwide : wide shape ≤ 1 := by
      rw [← lowFirst_eq_highFirst_iff hpos]
      intro idx hidx
      rw [← linearIdx_eq, ← columnMajorIdx_eq]
      exact h.agree idx hidx
    have hzeros := inRange_zeros hpos
    have hfirst : columnMajorIdx shape (List.replicate shape.length 0) = 0 := by
      rw [columnMajorIdx_eq, lowFirst_zeros]
    -- a first element that is the keyword, and `nil` behind it
    obtain ⟨rest, hfilled, hrest⟩ := exists_filled .initialElement hpos
    have hnested := h.nested _ hfilled _ hzeros
    rw [hfirst, List.getElem?_cons_zero] at hnested
    by_cases hone : shape.length = 1
    · exact .inl hone
    · rw [asNested, if_neg hone, flatten, reshape_arr hfilled] at hnested
      refine .inr ⟨?_, hwide, ?_⟩
      · by_contra hrank
        obtain rfl := List.length_eq_zero_iff.mp (by omega : shape.length = 0)
        cases hnested
      · intro hlast
        have hnext : (Value.initialElement :: rest).getD 1 .nil = .nil := by
          rw [List.getD_eq_getElem?_getD, List.getElem?_cons_succ]
          cases hget : rest[0]? with
          | none => rfl
          | some w => exact hrest w (List.mem_of_getElem? hget)
        rw [rebuild_eq_none hpos hlast rfl hnext] at hnested
        cases hnested
  · intro h
    have hwide : wide shape ≤ 1 := by
      rcases h with hone | ⟨-, hwide, -⟩
      · obtain ⟨d, rfl⟩ := List.length_eq_one_iff.mp hone
        exact List.countP_le_length
      · exact hwide
    have hagree := (lowFirst_eq_highFirst_iff hpos).mpr hwide
    have hcolumn : columnMajorIdx shape = lowFirst shape := funext (columnMajorIdx_eq shape)
    have hlinear : (linearIdx · shape) = highFirst shape := funext fun idx => linearIdx_eq idx shape
    refine ⟨?_, ?_, ?_, ?_, ?_⟩
    · rw [hcolumn]
      exact bijOn_lowFirst shape
    · rw [hlinear]
      exact bijOn_highFirst shape
    · intro idx hidx
      exact index_ok_iff.mpr ⟨idx, rfl, hidx, columnMajorIdx_eq shape idx⟩
    · intro idx hidx
      rw [linearIdx_eq, columnMajorIdx_eq]
      exact hagree idx hidx
    · intro storage hfilled idx hidx
      rw [columnMajorIdx_eq]
      rcases h with hone | ⟨hrank, -, hlast⟩
      · obtain ⟨d, rfl⟩ := List.length_eq_one_iff.mp hone
        obtain ⟨i, rest, rfl, hi, hrest⟩ := inRange_cons.mp hidx
        obtain rfl := inRange_nil.mp hrest
        have hlt : i < storage.length := by
          rw [hfilled]
          simpa using hi
        rw [asNested, if_pos hone, flatten, Option.bind_some, getSlice, get, Option.bind_some,
          getSlice, lowFirst, lowFirst, Nat.mul_zero, Nat.add_zero, List.getD_eq_getElem?_getD,
          List.getElem?_eq_getElem hlt,
          Option.getD_some]
        simp
      · obtain ⟨v, hv, hslice⟩ := asNested_rows hfilled hrank hlast
        rw [hv, Option.bind_some, hslice idx hidx, hagree idx hidx]

/-- A row of three. -/
theorem oneLayout_iff_row : OneLayout [1, 3] ↔
    [1, 3].length = 1 ∨ (2 ≤ [1, 3].length ∧ wide [1, 3] ≤ 1 ∧ [1, 3].getLast? ≠ some 2) :=
  oneLayout_iff (by decide)

/-- In a 2 × 3 array the element at (1, 0) is the second one stored; the nested vector has the
fourth there. -/
theorem not_oneLayout : ¬ OneLayout [2, 3] := by
  intro h
  have hagree := h.agree [1, 0] (by simp)
  have hlinear : linearIdx [1, 0] [2, 3] = 3 := by decide
  have hcolumn : columnMajorIdx [2, 3] [1, 0] = 1 := by decide
  omega

example : (asNested (.arr [2, 3] [.num 0, .num 1, .num 2, .num 3, .num 4, .num 5])).bind
    (getSlice · [1, 0]) =
    some (.num 3) := rfl

end Layout

end Fol.Arrays
