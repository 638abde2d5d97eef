/-
Fol.Collections.Deque — the `<deque>` of collections.lisp refines a list.

A deque is two vectors: the front one has the first elements in reverse, so that its last
element is the first of the deque. A pop takes the last element of a vector; where the one it
needs is empty it deals the elements out to both halves first, and a deque of one element is
replaced by a new one.
-/
import Fol.Collections.Making

namespace Fol.Collections

open VecTrie
open Making (Objects elementAt dequeSeq)

variable {α : Type}

/-! ## §1 Model -/

structure Deque (α : Type) where
  front : VecT α
  rear : VecT α

namespace Deque

/-- The halves of a list of elements. -/
def ofHalves (lst : List α) (mid : Nat) : Deque α where
  front := buildVecTFromList (lst.take mid).reverse
  rear := buildVecTFromList (lst.drop mid)

/-- `(make '<deque> …)`. -/
def make (args : List α) : Deque α := ofHalves args (args.length >>> 1)

def size (d : Deque α) : Nat := d.front.count + d.rear.count

/-- `collection-ref`; `none` is NOT-FOUND. -/
def ref (d : Deque α) (index : Int) : Option α :=
  if index < 0 ∨ index ≥ d.front.count + d.rear.count then none
  else if index < d.front.count then vecTRef d.front (d.front.count - 1 - index)
  else vecTRef d.rear (index - d.front.count)

/-- `collection-conj`. -/
def conj (d : Deque α) (element : α) : Deque α := { d with rear := vecTConj d.rear element }

def conjFront (d : Deque α) (element : α) : Deque α := { d with front := vecTConj d.front element }

section Pop

variable (O : Objects α)

/-- `%rebalance-deque`. The first loop pushes the rear from its end, the second one the front
from its start. -/
def rebalance (d : Deque α) : Deque α :=
  let total := d.front.count + d.rear.count
  if (d.front.count > 0 ∧ d.rear.count > 0) ∨ total < 2 then d
  else
    let rear := (List.range d.rear.count).reverse.foldl (fun lst i =>
      elementAt O d.rear i :: lst) []
    let lst := (List.range d.front.count).foldl (fun lst i => elementAt O d.front i :: lst) rear
    ofHalves lst (total >>> 1)

/-- `collection-pop-front`. -/
def popFront (d : Deque α) : Deque α :=
  let balanced := if d.front.count = 0 then rebalance O d else d
  if balanced.front.count > 0 then { balanced with front := vecTPop balanced.front }
  else if balanced.rear.count > 0 then make []
  else d

/-- `collection-pop`. -/
def pop (d : Deque α) : Deque α :=
  let balanced := if d.rear.count = 0 then rebalance O d else d
  if balanced.rear.count > 0 then { balanced with rear := vecTPop balanced.rear }
  else if balanced.front.count > 0 then make []
  else d

/-- `collection-seq`. -/
def seq (d : Deque α) : List α := dequeSeq O d.front d.rear

end Pop

/-! ## §2 Represents -/

/-- The deque of a list: the reverse of the front, and the rear. -/
structure Holds (d : Deque α) (fs rs : List α) : Prop where
  front : d.front.Represents fs
  rear : d.rear.Represents rs

def Represents (d : Deque α) (xs : List α) : Prop := ∃ fs rs, d.Holds fs rs ∧ xs = fs.reverse ++ rs

theorem count_eq {v : VecT α} {xs : List α} (R : v.Represents xs) : v.count = xs.length :=
  R.choose_spec.len

theorem map_elementAt (O : Objects α) {v : VecT α} {xs : List α} (R : v.Represents xs) :
    (List.range v.count).map (elementAt O v) = xs := by
  refine List.ext_getElem (by simp [count_eq R]) fun i hi hi' => ?_
  have hnat : ¬ ((i : Int) < 0) := by omega
  simp [elementAt, vecTRef_eq R, listRef, hi', hnat]

theorem Holds.seq (O : Objects α) {d : Deque α} {fs rs : List α} (H : d.Holds fs rs) :
    d.seq O = fs.reverse ++ rs := by
  rw [Deque.seq, dequeSeq, List.map_reverse, map_elementAt O H.front, map_elementAt O H.rear]

theorem Holds.size {d : Deque α} {fs rs : List α} (H : d.Holds fs rs) :
    d.size = (fs.reverse ++ rs).length := by
  simp [Deque.size, count_eq H.front, count_eq H.rear]

/-- An index in the front counts from the end of its vector. -/
theorem Holds.ref {d : Deque α} {fs rs : List α} (H : d.Holds fs rs) (index : Int) :
    d.ref index = listRef (fs.reverse ++ rs) index := by
  have hfront := count_eq H.front
  have hrear := count_eq H.rear
  unfold Deque.ref
  split
  · rename_i hout
    exact (listRef_out (by rw [List.length_append, List.length_reverse]; omega)).symm
  · rename_i hin
    obtain ⟨i, rfl⟩ := Int.eq_ofNat_of_zero_le (by omega : 0 ≤ index)
    rw [listRef_natCast]
    split
    · have hlt : i < fs.length := by omega
      have hidx : (d.front.count - 1 - i : Int) = ((fs.length - 1 - i : Nat) : Int) := by omega
      rw [vecTRef_eq H.front, hidx, listRef_natCast,
        List.getElem?_append_left (by simpa using hlt), List.getElem?_reverse hlt]
    · have hge : fs.length ≤ i := by omega
      have hidx : (i - d.front.count : Int) = ((i - fs.length : Nat) : Int) := by omega
      rw [vecTRef_eq H.rear, hidx, listRef_natCast,
        List.getElem?_append_right (by simpa using hge), List.length_reverse]

/-! ## §3 Operations -/

theorem holds_ofHalves (lst : List α) (mid : Nat) :
    (ofHalves lst mid).Holds (lst.take mid).reverse (lst.drop mid) :=
  ⟨buildVecTFromList_represents _, buildVecTFromList_represents _⟩

theorem represents_ofHalves (lst : List α) (mid : Nat) : (ofHalves lst mid).Represents lst :=
  ⟨_, _, holds_ofHalves lst mid, by rw [List.reverse_reverse, List.take_append_drop]⟩

theorem represents_make (args : List α) : (make args).Represents args := represents_ofHalves args _

theorem Holds.conj {d : Deque α} {fs rs : List α} (H : d.Holds fs rs) (x : α) :
    (d.conj x).Holds fs (rs ++ [x]) :=
  ⟨H.front, vecTConj_represents H.rear x⟩

theorem Holds.conjFront {d : Deque α} {fs rs : List α} (H : d.Holds fs rs) (x : α) :
    (d.conjFront x).Holds (fs ++ [x]) rs :=
  ⟨vecTConj_represents H.front x, H.rear⟩

theorem foldl_push {β : Type} (f : β → α) (is : List β) (lst : List α) :
    is.foldl (fun lst i => f i :: lst) lst = (is.map f).reverse ++ lst := by
  induction is generalizing lst with
  | nil => rfl
  | cons i is ih => simp [ih]

theorem rebalance_of_small (O : Objects α) {d : Deque α} (h : d.front.count + d.rear.count < 2) :
    d.rebalance O = d := if_pos (.inr h)

/-- Rebalancing deals the same list out to halves that are both inhabited. -/
theorem Holds.rebalance (O : Objects α) {d : Deque α} {fs rs : List α} (H : d.Holds fs rs)
    (htwo : 2 ≤ (fs.reverse ++ rs).length) :
    ∃ fs' rs', (d.rebalance O).Holds fs' rs' ∧ fs'.reverse ++ rs' = fs.reverse ++ rs ∧
      fs' ≠ [] ∧ rs' ≠ [] := by
  have hfront := count_eq H.front
  have hrear := count_eq H.rear
  have hlen := htwo
  rw [List.length_append, List.length_reverse] at hlen
  unfold Deque.rebalance
  dsimp only
  split
  · rename_i hbalanced
    have hboth := hbalanced.resolve_right (by omega)
    exact ⟨fs, rs, H, rfl,
      List.ne_nil_of_length_pos (by omega), List.ne_nil_of_length_pos (by omega)⟩
  · rw [foldl_push, foldl_push, List.map_reverse, List.reverse_reverse, map_elementAt O H.front,
      map_elementAt O H.rear, List.append_nil, hfront, hrear, Nat.shiftRight_eq_div_pow, pow_one]
    refine ⟨_, _, holds_ofHalves _ _, by rw [List.reverse_reverse, List.take_append_drop], ?_, ?_⟩
    · refine List.ne_nil_of_length_pos ?_
      rw [List.length_reverse, List.length_take, List.length_append, List.length_reverse]
      omega
    · refine List.ne_nil_of_length_pos ?_
      rw [List.length_drop, List.length_append, List.length_reverse]
      omega

/-- A front that is inhabited gives up the first element. -/
theorem Holds.pop_front {d : Deque α} {fs rs : List α} (H : d.Holds fs rs) (hne : fs ≠ []) :
    d.front.count > 0 ∧
      ({ d with front := vecTPop d.front } : Deque α).Represents (fs.reverse ++ rs).tail := by
  refine ⟨by rw [count_eq H.front]; exact List.length_pos_iff.mpr hne, fs.dropLast, rs,
    ⟨vecTPop_represents H.front, H.rear⟩, ?_⟩
  rw [List.tail_append_of_ne_nil (by simpa using hne), List.tail_reverse]

/-- A rear that is inhabited gives up the last element. -/
theorem Holds.pop_rear {d : Deque α} {fs rs : List α} (H : d.Holds fs rs) (hne : rs ≠ []) :
    d.rear.count > 0 ∧
      ({ d with rear := vecTPop d.rear } : Deque α).Represents (fs.reverse ++ rs).dropLast := by
  refine ⟨by rw [count_eq H.rear]; exact List.length_pos_iff.mpr hne, fs, rs.dropLast,
    ⟨H.front, vecTPop_represents H.rear⟩, ?_⟩
  rw [List.dropLast_append_of_ne_nil hne]

theorem represents_popFront (O : Objects α) {d : Deque α} {xs : List α} (R : d.Represents xs) :
    (d.popFront O).Represents xs.tail := by
  obtain ⟨fs, rs, H, rfl⟩ := R
  have hfront := count_eq H.front
  have hrear := count_eq H.rear
  unfold Deque.popFront
  dsimp only
  by_cases hempty : fs = []
  · subst hempty
    have hzero : d.front.count = 0 := hfront
    simp only [if_pos hzero]
    by_cases htwo : 2 ≤ rs.length
    · obtain ⟨fs', rs', H', hlist, hne, -⟩ := H.rebalance O (by simpa using htwo)
      obtain ⟨hpos, R'⟩ := H'.pop_front hne
      rw [if_pos hpos, ← hlist]
      exact R'
    · have hnil : (([] : List α).reverse ++ rs).tail = [] :=
        List.eq_nil_of_length_eq_zero (by simp; omega)
      rw [rebalance_of_small O (by omega), if_neg (by omega), hnil]
      split
      · exact represents_make []
      · have hrs : rs = [] := List.eq_nil_of_length_eq_zero (by omega)
        subst hrs
        exact ⟨[], [], H, rfl⟩
  · obtain ⟨hpos, R'⟩ := H.pop_front hempty
    simp only [if_neg (Nat.ne_of_gt hpos), if_pos hpos]
    exact R'

theorem represents_pop (O : Objects α) {d : Deque α} {xs : List α} (R : d.Represents xs) :
    (d.pop O).Represents xs.dropLast := by
  obtain ⟨fs, rs, H, rfl⟩ := R
  have hfront := count_eq H.front
  have hrear := count_eq H.rear
  unfold Deque.pop
  dsimp only
  by_cases hempty : rs = []
  · subst hempty
    have hzero : d.rear.count = 0 := hrear
    simp only [if_pos hzero]
    by_cases htwo : 2 ≤ fs.length
    · obtain ⟨fs', rs', H', hlist, -, hne⟩ := H.rebalance O (by simpa using htwo)
      obtain ⟨hpos, R'⟩ := H'.pop_rear hne
      rw [if_pos hpos, ← hlist]
      exact R'
    · have hnil : (fs.reverse ++ ([] : List α)).dropLast = [] :=
        List.eq_nil_of_length_eq_zero (by simp; omega)
      rw [rebalance_of_small O (by omega), if_neg (by omega), hnil]
      split
      · exact represents_make []
      · have hfs : fs = [] := List.eq_nil_of_length_eq_zero (by omega)
        subst hfs
        exact ⟨[], [], H, rfl⟩
  · obtain ⟨hpos, R'⟩ := H.pop_rear hempty
    simp only [if_neg (Nat.ne_of_gt hpos), if_pos hpos]
    exact R'

/-! ## §4 Runs -/

/-- The operations of a run. -/
inductive Op (α : Type) where
  | conj (x : α)
  | conjFront (x : α)
  | pop
  | popFront
deriving DecidableEq

def step (O : Objects α) (d : Deque α) : Op α → Deque α
  | .conj x => d.conj x
  | .conjFront x => d.conjFront x
  | .pop => d.pop O
  | .popFront => d.popFront O

/-- The same operation on the list. -/
def absStep (xs : List α) : Op α → List α
  | .conj x => xs ++ [x]
  | .conjFront x => x :: xs
  | .pop => xs.dropLast
  | .popFront => xs.tail

def run (O : Objects α) (args : List α) (ops : List (Op α)) : Deque α :=
  ops.foldl (step O) (make args)

def absRun (args : List α) (ops : List (Op α)) : List α := ops.foldl absStep args

/-- Step lemma. -/
theorem represents_step (O : Objects α) {d : Deque α} {xs : List α} (R : d.Represents xs)
    (op : Op α) : (step O d op).Represents (absStep xs op) := by
  cases op with
  | conj x =>
    obtain ⟨fs, rs, H, rfl⟩ := R
    exact ⟨_, _, H.conj x, List.append_assoc _ _ _⟩
  | conjFront x =>
    obtain ⟨fs, rs, H, rfl⟩ := R
    exact ⟨_, _, H.conjFront x, by simp [absStep]⟩
  | pop => exact represents_pop O R
  | popFront => exact represents_popFront O R

/-- Run lemma. -/
theorem represents_run (O : Objects α) (args : List α) (ops : List (Op α)) :
    (run O args ops).Represents (absRun args ops) := by
  have hrun : ∀ (ops : List (Op α)) {d : Deque α} {xs : List α}, d.Represents xs →
      (ops.foldl (step O) d).Represents (ops.foldl absStep xs) := by
    intro ops
    induction ops with
    | nil => exact fun R => R
    | cons op ops ih => exact fun R => ih (represents_step O R op)
  exact hrun ops (represents_make args)

theorem Represents.seq {O : Objects α} {d : Deque α} {xs : List α} (R : d.Represents xs) :
    d.seq O = xs := by
  obtain ⟨fs, rs, H, rfl⟩ := R
  exact H.seq O

theorem seq_run (O : Objects α) (args : List α) (ops : List (Op α)) :
    (run O args ops).seq O = absRun args ops ∧ (run O args ops).size =
    (absRun args ops).length := by
  have R := represents_run O args ops
  refine ⟨R.seq, ?_⟩
  obtain ⟨fs, rs, H, hxs⟩ := R
  rw [hxs, H.size]

/-- The deque refines a list: after any operations it lists what the same operations make of
the arguments, has as many elements, and reads each of them, whatever the index; an empty one
stays empty when it is popped. -/
theorem deque_refines_list (O : Objects α) (args : List α) (ops : List (Op α)) :
    (run O args ops).seq O = absRun args ops ∧
      (run O args ops).size = (absRun args ops).length ∧
      (∀ index : Int, (run O args ops).ref index = listRef (absRun args ops) index) ∧
      (absRun args ops = [] → ((run O args ops).pop O).seq O = [] ∧
        ((run O args ops).popFront O).seq O = []) := by
  have R := represents_run O args ops
  refine ⟨(seq_run O args ops).1, (seq_run O args ops).2, ?_, fun hempty => ?_⟩
  · obtain ⟨fs, rs, H, hxs⟩ := R
    intro index
    rw [hxs, H.ref]
  · rw [hempty] at R
    exact ⟨(represents_pop O R).seq, (represents_popFront O R).seq⟩

end Deque

end Fol.Collections
