/-
Fol.Lib.Permits — threads that wait at a condition variable for permits, each section that makes a
permit notifying one of them.

  §1 Waiting — `Wait`, `AtLeast`.
  §2 Enough  — `Enough` and what each change does to it.
-/
import Mathlib.Data.List.Nodup

namespace Fol.Lib

/-! ## §1 Waiting -/

/-- A thread inside of the wait loop: it waits; it was notified, or woke by itself, and is to take
the lock again. -/
inductive Wait where
  | waiting
  | notified
  | roused
deriving DecidableEq

/-- There are at least so many with the property. -/
def AtLeast {T : Type*} (n : Nat) (P : T → Prop) : Prop :=
  ∃ ts : List T, ts.Nodup ∧ n ≤ ts.length ∧ ∀ t ∈ ts, P t

namespace AtLeast

variable {T : Type*} {P Q : T → Prop} {m n : Nat}

theorem imp (h : AtLeast n P) (hPQ : ∀ t, P t → Q t) : AtLeast n Q := by
  obtain ⟨ts, hnodup, hlen, hP⟩ := h
  exact ⟨ts, hnodup, hlen, fun t ht => hPQ t (hP t ht)⟩

theorem zero : AtLeast 0 P := ⟨[], List.nodup_nil, Nat.zero_le _, nofun⟩

theorem exists_of_pos (h : AtLeast n P) (hn : 0 < n) : ∃ t, P t := by
  obtain ⟨ts, -, hlen, hP⟩ := h
  cases ts with
  | nil => exact absurd hlen (Nat.not_le_of_gt hn)
  | cons t ts => exact ⟨t, hP t List.mem_cons_self⟩

theorem insert (h : AtLeast n P) {t : T} (hnew : ¬ P t) (hPQ : ∀ u, P u → Q u) (ht : Q t) :
    AtLeast (n + 1) Q := by
  obtain ⟨ts, hnodup, hlen, hP⟩ := h
  refine ⟨t :: ts, List.nodup_cons.mpr ⟨fun hmem => hnew (hP t hmem), hnodup⟩, by simpa using hlen,
    fun u hu => ?_⟩
  rcases List.mem_cons.mp hu with rfl | hu
  · exact ht
  · exact hPQ u (hP u hu)

/-- One of them may go. -/
theorem erase [DecidableEq T] (h : AtLeast (n + 1) P) (t : T) (hPQ : ∀ u, u ≠ t → P u → Q u) :
    AtLeast n Q := by
  obtain ⟨ts, hnodup, hlen, hP⟩ := h
  refine ⟨ts.erase t, hnodup.erase t, ?_, fun u hu => ?_⟩
  · have hle : ts.length - 1 ≤ (ts.erase t).length := List.le_length_erase
    omega
  · exact hPQ u (hnodup.mem_erase_iff.mp hu).1 (hP u (List.mem_of_mem_erase hu))

end AtLeast

/-! ## §2 Enough -/

section

variable {T : Type*} {permits : Nat} {wait : T → Option Wait}

/-- When a thread waits, at least as many are notified as there are permits. -/
def Enough (permits : Nat) (wait : T → Option Wait) : Prop :=
  (∃ t, wait t = some .waiting) → AtLeast permits fun t => wait t = some .notified

namespace Enough

theorem zero : Enough 0 wait := fun _ => .zero

theorem of_none (h : ∀ t, wait t ≠ some .waiting) :
    Enough permits wait := fun ⟨t, ht⟩ => absurd ht (h t)

/-- No thread waits for a permit that is there, unless a notified one is to come. -/
theorem pending (h : Enough permits wait) (hpos : 0 < permits) {t : T}
    (ht : wait t = some .waiting) :
    ∃ u, wait u = some .notified :=
  (h ⟨t, ht⟩).exists_of_pos hpos

variable [DecidableEq T] {t : T} {w : Option Wait}

omit [DecidableEq T] in
private theorem waits_of_update [DecidableEq T] (hw : w ≠ some .waiting)
    (h : ∃ u, Function.update wait t w u = some .waiting) : ∃ u, wait u = some .waiting := by
  obtain ⟨u, hu⟩ := h
  by_cases hut : u = t
  · subst hut
    rw [Function.update_self] at hu
    exact absurd hu hw
  · rw [Function.update_of_ne hut] at hu
    exact ⟨u, hu⟩

/-- A thread that was not notified goes on. -/
theorem leave (h : Enough permits wait) (ht : wait t ≠ some .notified) (hw : w ≠ some .waiting) :
    Enough permits (Function.update wait t w) := by
  intro hex
  refine (h (waits_of_update hw hex)).imp fun u hu => ?_
  have hut : u ≠ t := by
    rintro rfl
    exact ht hu
  rwa [Function.update_of_ne hut]

/-- A thread goes on and takes a permit, notified or not. -/
theorem spend (h : Enough (permits + 1) wait) (hw : w ≠ some .waiting) :
    Enough permits (Function.update wait t w) := by
  intro hex
  refine (h (waits_of_update hw hex)).erase t fun u hut hu => ?_
  rwa [Function.update_of_ne hut]

/-- A permit is made and a waiting thread notified. -/
theorem notify (h : Enough permits wait) (ht : wait t = some .waiting) :
    Enough (permits + 1) (Function.update wait t (some .notified)) := by
  intro _
  refine (h ⟨t, ht⟩).insert (t := t) (by simp [ht]) (fun u hu => ?_) (by simp)
  by_cases hut : u = t
  · subst hut
    simp
  · rwa [Function.update_of_ne hut]

end Enough

end

end Fol.Lib
