/-
Fol.Collections.Arguments — what `collection-seq` lists of a collection, whatever its class.

`seque` and the reductions take any collection and see of it what this list has. Where the method of
a class asks an iterator, an element (or a key) `:eof` ends the list.
-/
import Fol.Collections.Deque
import Fol.Collections.Making
import Fol.Collections.Transients

namespace Fol.Collections.Arguments

open VecTrie Making
open Transients (vecSeq vecSeq_of_represents)

variable {α : Type} [DecidableEq α] (O : Objects α)

/-- A collection. `keyed` are the classes whose `collection-seq` asks a vector or B-tree iterator
for the elements or keys, and stops at the answer `:eof`: `<array>`, `<ordered-set>`,
`<ordered-dict>`, `<sorted-set>`, `<sorted-dict>`; an entry is such an answer with what is listed
for it. `unlisted` are the values without a method of their own that are no list: strings, vectors
of Common Lisp, transients. The others (lists, lazy sequences, and what is hashed, counted or
numeric) are listed whole. -/
inductive Argument (α : Type) where
  | vector (storage : VecT α)
  | deque (front rear : VecT α)
  | keyed (entries : List (α × α))
  | unlisted (elements : List α)
  | other (elements : List α)

def collectionSeq : Argument α → List α
  | .vector storage => vecSeq O.eof storage
  | .deque front rear => dequeSeq O front rear
  | .keyed entries => (entries.takeWhile fun e => e.1 ≠ O.eof).map Prod.snd
  | .unlisted _ => []
  | .other elements => elements

/-- The argument has these elements. -/
def Argument.Has : Argument α → List α → Prop
  | .vector storage, xs => storage.Represents xs
  | .deque front rear, xs => ∃ fs rs, front.Represents fs ∧ rear.Represents rs ∧
      xs = fs.reverse ++ rs
  | .keyed entries, xs => entries.map Prod.snd = xs
  | .unlisted elements, xs => elements = xs
  | .other elements, xs => elements = xs

/-- No element or key is taken for the end, and a value without a method has no elements. -/
def Argument.Whole : Argument α → List α → Prop
  | .vector _, xs => O.eof ∉ xs
  | .keyed entries, _ => ∀ e ∈ entries, e.1 ≠ O.eof
  | .unlisted _, xs => xs = []
  | _, _ => True

variable {O}

omit [DecidableEq α] in
theorem dequeSeq_of_represents {front rear : VecT α} {fs rs : List α} (hfront : front.Represents fs)
    (hrear : rear.Represents rs) : dequeSeq O front rear = fs.reverse ++ rs := by
  rw [dequeSeq, List.map_reverse, Deque.map_elementAt O hfront,
    Deque.map_elementAt O hrear]

theorem collectionSeq_subset {arg : Argument α} {xs : List α} (h : arg.Has xs) :
    collectionSeq O arg ⊆ xs := by
  cases arg with
  | vector storage =>
    rw [collectionSeq, vecSeq_of_represents h]
    exact List.takeWhile_subset _
  | deque front rear =>
    obtain ⟨fs, rs, hfront, hrear, rfl⟩ := h
    rw [collectionSeq, dequeSeq_of_represents hfront hrear]
    exact List.Subset.refl _
  | keyed entries =>
    rw [← (h : entries.map Prod.snd = xs)]
    exact List.map_subset _ (List.takeWhile_subset _)
  | unlisted elements => exact List.nil_subset _
  | other elements => exact (h : elements = xs) ▸ List.Subset.refl _

/-- `collection-seq` lists the elements exactly if the argument is whole. -/
theorem collectionSeq_eq_iff {arg : Argument α} {xs : List α} (h : arg.Has xs) :
    collectionSeq O arg = xs ↔ arg.Whole O xs := by
  cases arg with
  | vector storage =>
    rw [collectionSeq, vecSeq_of_represents h]
    exact takeWhile_ne_eq_self
  | deque front rear =>
    obtain ⟨fs, rs, hfront, hrear, rfl⟩ := h
    exact iff_of_true (dequeSeq_of_represents hfront hrear) trivial
  | keyed entries =>
    rw [← (h : entries.map Prod.snd = xs), collectionSeq, Argument.Whole]
    constructor
    · intro hseq
      have hlength : (entries.takeWhile fun e => e.1 ≠ O.eof).length = entries.length := by
        simpa using congrArg List.length hseq
      have hall :=
        (List.takeWhile_prefix fun e : α × α => decide (e.1 ≠ O.eof)).eq_of_length hlength
      exact fun e he => by simpa using List.takeWhile_eq_self_iff.mp hall e he
    · intro hall
      rw [List.takeWhile_eq_self_iff.mpr fun e he => by simpa using hall e he]
  | unlisted elements => exact eq_comm
  | other elements => exact iff_of_true h trivial

end Fol.Collections.Arguments
