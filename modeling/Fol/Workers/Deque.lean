/-
Fol.Workers.Deque — the deque of a worker: a circular buffer that doubles when it fills.

`head` is where others steal, `tail` where the owner pushes and pops. The elements stand at
`head`, `head + 1`, … modulo the length; one slot stays free, so that `head = tail` means empty.
-/
import Mathlib.Data.Nat.ModEq

namespace Fol.Workers

/-! ## §1 Distance -/

def between (head tail capacity : Nat) : Nat :=
  if tail < head then tail + capacity - head else tail - head

section

variable {head tail capacity : Nat}

theorem between_lt (hhead : head < capacity) (htail : tail < capacity) :
    between head tail capacity < capacity := by
  unfold between
  split <;> omega

theorem between_eq_zero (hhead : head < capacity) :
    between head tail capacity = 0 ↔ head = tail := by
  unfold between
  split <;> omega

theorem add_between (hhead : head < capacity) (htail : tail < capacity) :
    (head + between head tail capacity) % capacity = tail := by
  unfold between
  split
  · rw [show head + (tail + capacity - head) = tail + capacity by omega, Nat.add_mod_right,
      Nat.mod_eq_of_lt htail]
  · rw [show head + (tail - head) = tail by omega, Nat.mod_eq_of_lt htail]

/-- The tail moves on, with a slot left free. -/
theorem between_succ (hhead : head < capacity) (htail : tail < capacity)
    (hroom : between head tail capacity + 1 < capacity) :
    between head ((tail + 1) % capacity) capacity = between head tail capacity + 1 := by
  unfold between at hroom ⊢
  rcases Nat.lt_or_ge (tail + 1) capacity with hlt | hge
  · rw [Nat.mod_eq_of_lt hlt]
    split at hroom <;> split <;> omega
  · rw [show tail + 1 = capacity by omega, Nat.mod_self]
    split at hroom <;> split <;> omega

/-- The tail moves back. -/
theorem between_pred (hhead : head < capacity) (htail : tail < capacity) (hne : head ≠ tail) :
    between head ((tail + capacity - 1) % capacity) capacity = between head tail capacity - 1 := by
  unfold between
  rcases Nat.eq_zero_or_pos tail with rfl | hpos
  · rw [Nat.zero_add, Nat.mod_eq_of_lt (by omega)]
    split <;> split <;> omega
  · rw [show tail + capacity - 1 = tail - 1 + capacity by omega, Nat.add_mod_right,
      Nat.mod_eq_of_lt (by omega)]
    split <;> split <;> omega

/-- The head moves on. -/
theorem between_succ_head (hhead : head < capacity) (htail : tail < capacity) (hne : head ≠ tail) :
    between ((head + 1) % capacity) tail capacity = between head tail capacity - 1 := by
  unfold between
  rcases Nat.lt_or_ge (head + 1) capacity with hlt | hge
  · rw [Nat.mod_eq_of_lt hlt]
    split <;> split <;> omega
  · rw [show head + 1 = capacity by omega, Nat.mod_self]
    split <;> split <;> omega

/-- The last slot is the one before the tail. -/
theorem add_between_pred (hhead : head < capacity) (htail : tail < capacity) (hne : head ≠ tail) :
    (head + (between head tail capacity - 1)) % capacity = (tail + capacity - 1) % capacity := by
  unfold between
  split
  · rw [show head + (tail + capacity - head - 1) = tail + capacity - 1 by omega]
  · rw [show head + (tail - head - 1) = tail - 1 by omega,
      show tail + capacity - 1 = tail - 1 + capacity by omega, Nat.add_mod_right]

/-- Different distances lead to different slots. -/
theorem index_ne (head : Nat) {i j : Nat} (hi : i < capacity) (hj : j < capacity) (hne : i ≠ j) :
    (head + i) % capacity ≠ (head + j) % capacity := by
  intro heq
  have hmod : i ≡ j [MOD capacity] := Nat.ModEq.add_left_cancel' head heq
  exact hne (by rwa [Nat.ModEq, Nat.mod_eq_of_lt hi, Nat.mod_eq_of_lt hj] at hmod)

end

/-! ## §2 Deque -/

/-- `worker-deque`. A slot is nil or a work item. -/
structure Deque (α : Type) where
  data : List (Option α)
  head : Nat
  tail : Nat
  head_lt : head < data.length
  tail_lt : tail < data.length

namespace Deque

variable {α : Type}

/-- `%make-worker-deque`. -/
def make : Deque α where
  data := List.replicate 64 none
  head := 0
  tail := 0
  head_lt := by simp
  tail_lt := by simp

variable (d : Deque α)

theorem length_pos : 0 < d.data.length := Nat.zero_lt_of_lt d.head_lt

/-- `%deque-count`. -/
def count : Nat := between d.head d.tail d.data.length

/-- `%deque-empty-p`. -/
def emptyP : Bool := d.head == d.tail

/-- The element this far from the head. -/
def slot (i : Nat) : Option α := (d.data[(d.head + i) % d.data.length]?).join

theorem count_lt : d.count < d.data.length := between_lt d.head_lt d.tail_lt

theorem length_grown : ((List.range d.count).map d.slot ++
    List.replicate (2 * d.data.length - d.count) none).length = 2 * d.data.length := by
  have hcount := d.count_lt
  simp only [List.length_append, List.length_map, List.length_range, List.length_replicate]
  omega

/-- `%deque-grow`: the elements from index 0. -/
def grow : Deque α where
  data := (List.range d.count).map d.slot ++ List.replicate (2 * d.data.length - d.count) none
  head := 0
  tail := d.count
  head_lt := by
    rw [length_grown]
    have hpos := d.length_pos
    omega
  tail_lt := by
    rw [length_grown]
    have hcount := d.count_lt
    omega

/-- The push once there is room. -/
def put (x : α) : Deque α where
  data := d.data.set d.tail (some x)
  head := d.head
  tail := (d.tail + 1) % d.data.length
  head_lt := by simpa using d.head_lt
  tail_lt := by simpa using Nat.mod_lt _ d.length_pos

/-- `%deque-push-tail!`. -/
def pushTail (x : α) : Deque α := if d.data.length - 1 ≤ d.count then d.grow.put x else d.put x

/-- The index before the tail. -/
def last : Nat := (d.tail + d.data.length - 1) % d.data.length

/-- `%deque-pop-tail!`. -/
def popTail : Option (Option α × Deque α) :=
  if d.emptyP then none
  else some ((d.data[d.last]?).join, {
    data := d.data.set d.last none
    head := d.head
    tail := d.last
    head_lt := by simpa using d.head_lt
    tail_lt := by simpa [last] using Nat.mod_lt _ d.length_pos })

/-- `%deque-steal-head!`. -/
def stealHead : Option (Option α × Deque α) :=
  if d.emptyP then none
  else some ((d.data[d.head]?).join, {
    data := d.data.set d.head none
    head := (d.head + 1) % d.data.length
    tail := d.tail
    head_lt := by simpa using Nat.mod_lt _ d.length_pos
    tail_lt := by simpa using d.tail_lt })

/-! ## §3 Elements -/

/-- From the oldest to the newest. -/
def toList : List (Option α) := (List.range d.count).map d.slot

@[simp] theorem length_toList : d.toList.length = d.count := by simp [toList]

@[simp] theorem toList_make : (make : Deque α).toList = [] := rfl

theorem emptyP_iff : d.emptyP = true ↔ d.toList = [] := by
  rw [← List.length_eq_zero_iff, length_toList, emptyP, beq_iff_eq, count,
    between_eq_zero d.head_lt]

theorem count_grow : d.grow.count = d.count := by simp [count, grow, between]

theorem length_grow : d.grow.data.length = 2 * d.data.length := d.length_grown

theorem toList_grow : d.grow.toList = d.toList := by
  rw [toList, toList, count_grow]
  refine List.map_congr_left fun i hi => ?_
  have hi := List.mem_range.mp hi
  have hcount := d.count_lt
  have hlt : (d.grow.head + i) % d.grow.data.length = i := by
    rw [length_grow, show d.grow.head = 0 from rfl, Nat.zero_add, Nat.mod_eq_of_lt (by omega)]
  have hdata : d.grow.data[i]? = some (d.slot i) := by
    rw [grow, List.getElem?_append_left (by simpa using hi)]
    simp [hi]
  rw [slot, hlt, hdata, Option.join_some]

theorem toList_put {x : α} (h : d.count + 1 < d.data.length) :
    (d.put x).toList = d.toList ++ [some x] := by
  have hcount : (d.put x).count = d.count + 1 := by
    simpa [count, put] using between_succ d.head_lt d.tail_lt h
  rw [toList, hcount, List.range_succ, List.map_append]
  congr 1
  · refine List.map_congr_left fun i hi => ?_
    have hi := List.mem_range.mp hi
    have hne : d.tail ≠ (d.head + i) % d.data.length := by
      have hne' := index_ne d.head d.count_lt (show i < d.data.length by omega) (by omega)
      rwa [count, add_between d.head_lt d.tail_lt] at hne'
    simp [slot, put, List.getElem?_set_ne hne]
  · have htail : (d.head + d.count) % d.data.length = d.tail := add_between d.head_lt d.tail_lt
    simp [slot, put, htail, d.tail_lt]

/-- A push adds its element at the end, also when the buffer is doubled. -/
theorem toList_pushTail (x : α) : (d.pushTail x).toList = d.toList ++ [some x] := by
  have hcount := d.count_lt
  unfold pushTail
  split
  · rw [toList_put, toList_grow]
    rw [count_grow, length_grow]
    omega
  · exact d.toList_put (by omega)

/-- A pop takes the last element. -/
theorem toList_popTail {x : Option α} {d' : Deque α} (h : d.popTail = some (x, d')) :
    d.toList = d'.toList ++ [x] := by
  unfold popTail at h
  split at h
  · cases h
  · next hempty =>
    have hne : d.head ≠ d.tail := by simpa [emptyP] using hempty
    have hpos : 0 < d.count :=
      Nat.pos_of_ne_zero fun hzero => hne ((between_eq_zero d.head_lt).mp hzero)
    have hcount := d.count_lt
    have hlast : (d.head + (d.count - 1)) % d.data.length = d.last :=
      add_between_pred d.head_lt d.tail_lt hne
    obtain ⟨rfl, hd⟩ := Prod.mk.inj (Option.some.inj h)
    have hfewer : d'.count = d.count - 1 := by
      rw [← hd, count, List.length_set]
      exact between_pred d.head_lt d.tail_lt hne
    rw [toList, toList, hfewer, ← hd, show d.count = d.count - 1 + 1 by omega,
      List.range_succ, List.map_append]
    congr 1
    · rw [Nat.add_sub_cancel]
      refine List.map_congr_left fun i hi => ?_
      have hi := List.mem_range.mp hi
      have hslot : d.last ≠ (d.head + i) % d.data.length := by
        rw [← hlast]
        exact index_ne d.head (by omega) (by omega) (by omega)
      simp [slot, List.getElem?_set_ne hslot]
    · simp [slot, hlast]

/-- A thief takes the first element. -/
theorem toList_stealHead {x : Option α} {d' : Deque α} (h : d.stealHead = some (x, d')) :
    d.toList = x :: d'.toList := by
  unfold stealHead at h
  split at h
  · cases h
  · next hempty =>
    have hne : d.head ≠ d.tail := by simpa [emptyP] using hempty
    have hpos : 0 < d.count :=
      Nat.pos_of_ne_zero fun hzero => hne ((between_eq_zero d.head_lt).mp hzero)
    have hcount := d.count_lt
    obtain ⟨rfl, hd⟩ := Prod.mk.inj (Option.some.inj h)
    have hfewer : d'.count = d.count - 1 := by
      rw [← hd, count, List.length_set]
      exact between_succ_head d.head_lt d.tail_lt hne
    rw [toList, toList, hfewer, ← hd, show d.count = d.count - 1 + 1 by omega,
      List.range_succ_eq_map, List.map_cons, List.map_map]
    congr 1
    · simp [slot, Nat.mod_eq_of_lt d.head_lt]
    · rw [Nat.add_sub_cancel]
      refine List.map_congr_left fun i hi => ?_
      have hi := List.mem_range.mp hi
      have hslot : d.head ≠ (d.head + (i + 1)) % d.data.length := by
        have hne' := index_ne d.head d.length_pos (show i + 1 < d.data.length by omega) (by omega)
        rwa [Nat.add_zero, Nat.mod_eq_of_lt d.head_lt] at hne'
      simp only [slot, List.length_set, Nat.mod_add_mod, Function.comp, Nat.succ_eq_add_one]
      rw [Nat.add_assoc, Nat.add_comm 1 i, List.getElem?_set_ne hslot]

theorem popTail_eq_none : d.popTail = none ↔ d.toList = [] := by
  simp [popTail, ← emptyP_iff]

theorem stealHead_eq_none : d.stealHead = none ↔ d.toList = [] := by
  simp [stealHead, ← emptyP_iff]

/-! ## §4 Runs -/

inductive Op (α : Type) where
  | pushTail (x : α)
  | popTail
  | stealHead

/-- An operation, with what a pop or a steal finds; `none` is NIL, NIL. -/
def perform : Op α → Option (Option α) × Deque α
  | .pushTail x => (none, d.pushTail x)
  | .popTail =>
    match d.popTail with
    | some (x, d') => (some x, d')
    | none => (none, d)
  | .stealHead =>
    match d.stealHead with
    | some (x, d') => (some x, d')
    | none => (none, d)

def run (d : Deque α) : List (Op α) → List (Option (Option α)) × Deque α
  | [] => ([], d)
  | op :: ops =>
    let found := d.perform op
    let rest := run found.2 ops
    (found.1 :: rest.1, rest.2)

/-- The same operation on a list. -/
def performList (xs : List α) : Op α → Option α × List α
  | .pushTail x => (none, xs ++ [x])
  | .popTail => (xs.getLast?, xs.dropLast)
  | .stealHead => (xs.head?, xs.tail)

def runList (xs : List α) : List (Op α) → List (Option α) × List α
  | [] => ([], xs)
  | op :: ops =>
    let found := performList xs op
    let rest := runList found.2 ops
    (found.1 :: rest.1, rest.2)

/-- One operation on a deque that holds a list. -/
theorem perform_eq {xs : List α} (h : d.toList = xs.map some) (op : Op α) :
    (d.perform op).1 = (performList xs op).1.map some ∧
      (d.perform op).2.toList = (performList xs op).2.map some := by
  cases op with
  | pushTail x =>
    refine ⟨rfl, ?_⟩
    simp [perform, performList, toList_pushTail, h]
  | popTail =>
    simp only [perform, performList]
    cases hpop : d.popTail with
    | none =>
      obtain rfl : xs = [] := by simpa [h] using d.popTail_eq_none.mp hpop
      exact ⟨rfl, h⟩
    | some found =>
      obtain ⟨y, d'⟩ := found
      obtain ⟨ys, last, rfl, hys, hlast⟩ :=
        List.map_eq_append_iff.mp (h.symm.trans (toList_popTail d hpop))
      obtain ⟨x, rfl, rfl⟩ := List.map_eq_singleton_iff.mp hlast
      simp [hys]
  | stealHead =>
    simp only [perform, performList]
    cases hsteal : d.stealHead with
    | none =>
      obtain rfl : xs = [] := by simpa [h] using d.stealHead_eq_none.mp hsteal
      exact ⟨rfl, h⟩
    | some found =>
      obtain ⟨y, d'⟩ := found
      obtain ⟨x, ys, rfl, rfl, hys⟩ :=
        List.map_eq_cons_iff.mp (h.symm.trans (toList_stealHead d hsteal))
      simp [hys]

theorem run_eq (ops : List (Op α)) : ∀ (d : Deque α) (xs : List α), d.toList = xs.map some →
    (d.run ops).1 = (runList xs ops).1.map (Option.map some) ∧
      (d.run ops).2.toList = (runList xs ops).2.map some := by
  induction ops with
  | nil => exact fun d xs h => ⟨rfl, h⟩
  | cons op ops ih =>
    intro d xs h
    obtain ⟨hfound, hafter⟩ := d.perform_eq h op
    obtain ⟨hrest, hlast⟩ := ih _ _ hafter
    simp [run, runList, hfound, hrest, hlast]

/-- Whatever the operations: what they find, the count, and the two ends. -/
theorem worker_deque_refines_list (ops : List (Op α)) :
    let after := (run make ops).2
    (run make ops).1 = (runList [] ops).1.map (Option.map some) ∧
      after.toList = (runList [] ops).2.map some ∧
      after.count = (runList [] ops).2.length ∧
      after.head < after.data.length ∧ after.tail < after.data.length ∧
      after.count < after.data.length := by
  intro after
  obtain ⟨hfound, hlist⟩ := run_eq ops make ([] : List α) rfl
  refine ⟨hfound, hlist, ?_, after.head_lt, after.tail_lt, after.count_lt⟩
  rw [← length_toList, hlist, List.length_map]

end Deque

end Fol.Workers
