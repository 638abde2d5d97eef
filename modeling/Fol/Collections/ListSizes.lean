/-
Fol.Collections.ListSizes — the sizes that the nodes of lists and lazy sequences cache.

`make` and `collection-conj` count. `vec->lazy-seq` passes each node the number of elements
that remain, which is its size unless the iteration ends at an element `:eof`. The lazy
sequences of a vector, a set and a deque pass 1 to every node: their size is 1 as soon as
there is an element.
-/
import Fol.Collections.Deque
import Fol.Collections.Iteration

namespace Fol.Collections

open VecTrie HashTrie
open Making (Objects)
open Transients (hamtSeq)

variable {τ α ν : Type} [DecidableEq α]

/-! ## §1 Producers -/

/-- `vec->lazy-seq`. -/
def vecToLazySeq (eof : α) (v : VecT α) : Seq α := buildLazyChain eof id v.count (vecTAnswers v)

omit [DecidableEq α] in
/-- The lazy sequence of a `<set>`. The iterator answers pairs, none of which is `:eof`. -/
def setLazySeq (dictStorage : Hamt τ α ν) : Seq α :=
  ((hamtSeq dictStorage).map Prod.fst).foldr lazyCons .null

/-- The lazy sequence of a `<deque>`. The generator answers the elements in order. -/
def dequeLazySeq (O : Objects α) (d : Deque α) : Seq α :=
  buildLazyChain O.eof (fun _ => 1) d.size ((d.seq O).map some)

/-- What makes a list or a lazy sequence. -/
inductive Producer (τ α ν : Type) [DecidableEq α] where
  | make (elements : List α)
  | lazyVector (v : VecT α) (hv : Built v)
  | lazySet (dictStorage : Hamt τ α ν)
  | lazyDeque (args : List α) (ops : List (Deque.Op α))
  | vecLazy (v : VecT α) (hv : Built v)
  | conj (p : Producer τ α ν) (x : α)

def Producer.value (O : Objects α) : Producer τ α ν → Seq α
  | .make elements => makeList elements
  | .lazyVector v _ => pvecLazySeq O.eof v
  | .lazySet dictStorage => setLazySeq dictStorage
  | .lazyDeque args ops => dequeLazySeq O (Deque.run O args ops)
  | .vecLazy v _ => vecToLazySeq O.eof v
  | .conj p x => collectionConj (p.value O) x

/-- A `<list>` or a `<lazy-seq>`. -/
def Seq.IsSequence : Seq α → Prop
  | .null => False
  | .error => False
  | _ => True

/-- The size is the number of elements, and `collection-conj` adds one to both. -/
structure Truthful (s : Seq α) : Prop where
  size : ∃ xs, collectionSeq s = some xs ∧ collectionSize s = some xs.length
  conj : ∀ x, collectionSize (collectionConj s x) = (collectionSize s).map (· + 1) ∧
    collectionSeq (collectionConj s x) = (collectionSeq s).map (x :: ·)

/-- The elements of a vector. -/
def elements (v : VecT α) : List α :=
  (List.range v.count).filterMap fun i : Nat => vecTRef v (i : Int)

/-- Where the size is right: nodes of size 1 have one element or none in front of `:eof`, and
counted nodes all of them or none. -/
def Producer.Counted (O : Objects α) : Producer τ α ν → Prop
  | .make _ => True
  | .lazyVector v _ => ((elements v).takeWhile (· ≠ O.eof)).length ≤ 1
  | .lazySet dictStorage => (hamtSeq dictStorage).length ≤ 1
  | .lazyDeque args ops => ((Deque.absRun args ops).takeWhile (· ≠ O.eof)).length ≤ 1
  | .vecLazy v _ => O.eof ∉ elements v ∨ (elements v).head? = some O.eof
  | .conj p _ => p.Counted O

/-! ## §2 Conj -/

section Conj

variable {s : Seq α} {x : α}

omit [DecidableEq α] in
theorem isSequence_conj (h : (collectionConj s x).IsSequence) : s.IsSequence := by
  cases s <;> first | exact h | trivial

omit [DecidableEq α] in
/-- `collection-conj` adds one element and one to the size. -/
theorem collectionConj_adds (h : s.IsSequence) (x : α) :
    collectionSize (collectionConj s x) = (collectionSize s).map (· + 1) ∧
      collectionSeq (collectionConj s x) = (collectionSeq s).map (x :: ·) := by
  cases s with
  | null => exact h.elim
  | error => exact h.elim
  | empty => exact ⟨rfl, rfl⟩
  | node y rest n => exact ⟨rfl, by simp [collectionConj, collectionSeq]⟩
  | lazySeq thunk =>
    have hseq : collectionSeq (.lazySeq thunk) = collectionSeq (realize thunk) :=
      (collectionSeq_realize thunk).symm
    rw [hseq]
    simp only [collectionConj, collectionSize]
    cases hreal : realize thunk with
    | null => exact ⟨rfl, rfl⟩
    | empty => exact ⟨rfl, rfl⟩
    | node y rest n => exact ⟨rfl, by simp [collectionSeq]⟩
    | error => exact ⟨rfl, rfl⟩
    | lazySeq t => exact absurd hreal (realize_ne_lazySeq thunk t)

/-- The size is the number of elements. -/
def Sized (s : Seq α) : Prop := ∃ xs, collectionSeq s = some xs ∧ collectionSize s = some xs.length

omit [DecidableEq α] in
theorem truthful_iff_sized (h : s.IsSequence) : Truthful s ↔ Sized s :=
  ⟨fun ht => ht.size, fun hs => ⟨hs, collectionConj_adds h⟩⟩

omit [DecidableEq α] in
theorem sized_conj_iff (h : s.IsSequence) : Sized (collectionConj s x) ↔ Sized s := by
  obtain ⟨hsize, hseq⟩ := collectionConj_adds h x
  unfold Sized
  rw [hsize, hseq]
  cases collectionSeq s <;> cases collectionSize s <;> simp

end Conj

/-! ## §3 Chains -/

section Chains

variable {x : α} {xs : List α} {eof : α}

omit [DecidableEq α] in
/-- A node of size 1 is truthful in front of nothing. -/
theorem sized_lazyCons_iff {rest : Seq α} :
    Sized (lazyCons x rest) ↔ collectionSeq rest = some [] := by
  unfold Sized
  rw [collectionSeq_lazyCons]
  have hsize : rest ≠ .error → collectionSize (lazyCons x rest) = some 1 := by
    intro hne
    cases rest <;> first | rfl | exact absurd rfl hne
  by_cases herror : rest = .error
  · subst herror
    simp [collectionSeq]
  · rw [hsize herror]
    cases collectionSeq rest with
    | none => simp
    | some ys => cases ys <;> simp

theorem collectionSeq_buildSeq_eq_nil_iff {answers : Answers α} :
    collectionSeq (buildSeq eof answers) = some [] ↔ ∀ a, answers.head? = some a →
    a = some eof := by
  cases answers with
  | nil => simp [buildSeq, collectionSeq]
  | cons a rest =>
    cases a with
    | none => simp [buildSeq, collectionSeq]
    | some y =>
      by_cases hy : y = eof
      · simp [buildSeq, collectionSeq, hy]
      · simp [buildSeq, collectionSeq_lazyCons, hy]

omit [DecidableEq α] in
theorem collectionSeq_foldr_lazyCons (xs : List α) :
    collectionSeq (xs.foldr lazyCons .null) = some xs := by
  induction xs with
  | nil => rfl
  | cons x xs ih => simp [collectionSeq_lazyCons, ih]

/-- The size of a chain is that of its first node. -/
theorem sized_buildLazyChain_iff {listSize : Nat → Nat} (hsize : ∀ n, listSize (n + 1) ≠ 0) :
    Sized (buildLazyChain eof listSize (x :: xs).length ((x :: xs).map some)) ↔
      x = eof ∨ ((x :: xs).takeWhile (· ≠ eof)).length = listSize (xs.length + 1) := by
  unfold Sized
  rw [collectionSeq_buildLazyChain eof hsize]
  by_cases hx : x = eof
  · simp [buildLazyChain, collectionSize, realize, hx]
  · simp [buildLazyChain, collectionSize, realize, hx, eq_comm]

/-- The elements in front of `:eof`, when the first one is. -/
theorem length_takeWhile_le_one_iff (hx : x ≠ eof) :
    ((x :: xs).takeWhile (· ≠ eof)).length ≤ 1 ↔ ∀ y, xs.head? = some y → y = eof := by
  cases xs with
  | nil => simp [hx]
  | cons y ys =>
    by_cases hy : y = eof
    · simp [hx, hy]
    · simp [hx, hy]

end Chains

/-! ## §4 Producers -/

section Producers

omit [DecidableEq α] in
theorem filterMap_range_getElem? (xs : List α) (n : Nat) :
    (List.range n).filterMap (fun i => xs[i]?) = xs.take n := by
  induction n with
  | zero => simp
  | succ n ih =>
    rw [List.range_succ, List.filterMap_append, ih, List.take_add_one]
    cases hx : xs[n]? <;> simp [hx]

omit [DecidableEq α] in
theorem elements_eq {v : VecT α} {xs : List α} (R : v.Represents xs) : elements v = xs := by
  have hread (i : Nat) : vecTRef v i = xs[i]? := by rw [vecTRef_eq R, listRef_natCast]
  simp only [elements, hread, filterMap_range_getElem?, R.choose_spec.len, List.take_length]

omit [DecidableEq α] in
theorem sized_makeList (xs : List α) : Sized (makeList xs) := by
  refine ⟨xs, collectionSeq_makeList xs, ?_⟩
  cases xs <;> rfl

omit [DecidableEq α] in
/-- A vector whose only block is a full tail: its first chunk is looked for in an empty tree. -/
theorem pvecLeafFor_full_tail {v : VecT α} {xs : List α} (R : v.Represents xs) (h : v.count = 32) :
    pvecLeafFor v 0 = none := by
  obtain ⟨ls, S⟩ := R
  have hsplit := S.split
  have htail : tailLength v.count = 32 := by rw [h]; rfl
  have hls : ls = [] := List.eq_nil_of_length_eq_zero (by omega)
  have hroot : v.root = .node [] := by
    rcases S.tree.shape with ⟨-, hroot⟩ | ⟨hne, -⟩
    · exact hroot
    · exact absurd hls hne
  have hlow : ¬0 ≥ logandNeg32 v.count := by rw [h]; decide
  rw [pvecLeafFor, if_neg hlow, hroot]
  unfold descend
  split <;> simp [leafChunk]

omit [DecidableEq α] in
/-- The first two answers of the lazy iterator. -/
theorem pvecCalls_head {v : VecT α} {x : α} {xs : List α} (R : v.Represents (x :: xs))
    (h : v.count ≠ 32) :
    ∃ rest, pvecCalls v v.count {} = some x :: rest ∧ rest.head? = xs.head?.map some := by
  have hcount : v.count = xs.length + 1 := R.choose_spec.len
  have hsafe (i : Nat) (hi : i < 2) : v.count % 32 ≠ 0 ∨ i < tailStart v.count := by
    by_cases hmod : v.count % 32 = 0
    · refine .inr ?_
      unfold tailStart logandNeg32
      rw [and_bitMask, if_neg (by omega)]
      omega
    · exact .inl hmod
  have hstart : ChunkCached (x :: xs) {} := .inl ⟨rfl, rfl⟩
  obtain ⟨hval, hindex, hcur⟩ := pvecNext_spec R (hsafe 0 (by omega)) hstart (by simp)
  refine ⟨pvecCalls v xs.length (pvecNext v {}).2, ?_, ?_⟩
  · rw [hcount, pvecCalls, hval]
    rfl
  · cases xs with
    | nil => rfl
    | cons y ys =>
      have hsecond : v.count % 32 ≠ 0 ∨ (pvecNext v {}).2.globalIdx < tailStart v.count := by
        rw [hindex]
        exact hsafe 1 (by omega)
      obtain ⟨hval', -, -⟩ := pvecNext_spec R hsecond hcur (by rw [hindex]; simp)
      rw [List.length_cons, pvecCalls, hval']
      simp [hindex]

theorem sized_lazyVector_iff {eof : α} {v : VecT α} (hv : Built v)
    (h : (pvecLazySeq eof v).IsSequence) :
    Sized (pvecLazySeq eof v) ↔ ((elements v).takeWhile (· ≠ eof)).length ≤ 1 := by
  obtain ⟨xs, R⟩ := hv.represents
  rw [elements_eq R]
  have hcount : v.count = xs.length := R.choose_spec.len
  cases xs with
  | nil =>
    rw [pvecLazySeq, hcount] at h
    exact h.elim
  | cons x xs =>
    have hne : v.count ≠ 32 := by
      intro h32
      rw [pvecLazySeq, h32, pvecCalls, pvecNext] at h
      simp only [pvecLeafFor_full_tail R h32] at h
      exact h
    obtain ⟨rest, hcalls, hhead⟩ := pvecCalls_head R hne
    rw [pvecLazySeq, hcalls, buildSeq] at h ⊢
    by_cases hx : x = eof
    · rw [if_pos hx] at h
      exact h.elim
    · rw [if_neg hx, sized_lazyCons_iff, collectionSeq_buildSeq_eq_nil_iff, hhead,
        length_takeWhile_le_one_iff hx]
      cases xs.head? <;> simp

theorem sized_vecLazy_iff {eof : α} {v : VecT α} (hv : Built v)
    (h : (vecToLazySeq eof v).IsSequence) :
    Sized (vecToLazySeq eof v) ↔ eof ∉ elements v ∨ (elements v).head? = some eof := by
  obtain ⟨xs, R⟩ := hv.represents
  have hcount : v.count = xs.length := R.choose_spec.len
  rw [elements_eq R]
  rw [vecToLazySeq, vecTAnswers_eq R, hcount] at h ⊢
  cases xs with
  | nil => exact h.elim
  | cons x xs =>
    rw [sized_buildLazyChain_iff (by simp), ← Making.takeWhile_ne_eq_self]
    have hfull : ((x :: xs).takeWhile (· ≠ eof)).length = id (xs.length + 1) ↔
        (x :: xs).takeWhile (· ≠ eof) = x :: xs := by
      refine ⟨fun hlen => ?_, fun heq => by rw [heq]; rfl⟩
      exact (List.takeWhile_prefix _).eq_of_length hlen
    rw [hfull, or_comm, List.head?_cons, Option.some.injEq]

theorem sized_lazyDeque_iff (O : Objects α) (args : List α) (ops : List (Deque.Op α))
    (h : (dequeLazySeq O (Deque.run O args ops)).IsSequence) :
    Sized (dequeLazySeq O (Deque.run O args ops)) ↔
      ((Deque.absRun args ops).takeWhile (· ≠ O.eof)).length ≤ 1 := by
  obtain ⟨hseq, hsize⟩ := Deque.seq_run O args ops
  rw [dequeLazySeq, hseq, hsize] at h ⊢
  cases hxs : Deque.absRun args ops with
  | nil =>
    rw [hxs] at h
    exact h.elim
  | cons x xs =>
    rw [sized_buildLazyChain_iff (by simp)]
    by_cases hx : x = O.eof
    · simp [hx]
    · simp [hx]

omit [DecidableEq α] in
theorem sized_lazySet_iff (dictStorage : Hamt τ α ν) (h : (setLazySeq dictStorage).IsSequence) :
    Sized (setLazySeq dictStorage) ↔ (hamtSeq dictStorage).length ≤ 1 := by
  rw [setLazySeq] at h ⊢
  rw [← List.length_map Prod.fst]
  cases hkeys : (hamtSeq dictStorage).map Prod.fst with
  | nil =>
    rw [hkeys] at h
    exact h.elim
  | cons k ks =>
    rw [List.foldr_cons, sized_lazyCons_iff, collectionSeq_foldr_lazyCons]
    simp

/-- The sizes are truthful for what `make` and `collection-conj` make on top of a truthful
sequence, for the lazy sequences of size 1 where there is no second element, and for those of
`vec->lazy-seq` where no `:eof` comes after a first element. -/
theorem truthful_iff (O : Objects α) (p : Producer τ α ν) (h : (p.value O).IsSequence) :
    Truthful (p.value O) ↔ p.Counted O := by
  rw [truthful_iff_sized h]
  induction p with
  | make elements => exact iff_of_true (sized_makeList elements) trivial
  | lazyVector v hv => exact sized_lazyVector_iff hv h
  | lazySet dictStorage => exact sized_lazySet_iff dictStorage h
  | lazyDeque args ops => exact sized_lazyDeque_iff O args ops h
  | vecLazy v hv => exact sized_vecLazy_iff hv h
  | conj p x ih =>
    have hp := isSequence_conj h
    rw [Producer.value, sized_conj_iff hp]
    exact ih hp

/-- A second element on top of `(make '<list> :a)`. -/
theorem truthful_iff_conj :
    Truthful (((Producer.make [":a"]).conj ":b" : Producer String String Unit).value namedObjects) ↔
      ((Producer.make [":a"]).conj ":b" : Producer String String Unit).Counted namedObjects :=
  truthful_iff namedObjects ((Producer.make [":a"]).conj ":b") trivial

/-- `(collection-size (collection-lazy-seq (make '<vector> :a :b)))` is 1. -/
theorem lazyVector_not_truthful :
    ¬Truthful ((Producer.lazyVector (buildVecTFromList [":a", ":b"])
      (.start (.fromList [":a", ":b"])) : Producer String String Unit).value namedObjects) := by
  rintro ⟨⟨xs, hseq, hsize⟩, -⟩
  have hlisted : some [":a", ":b"] = some xs := by
    rw [← hseq]
    decide
  cases hlisted
  exact absurd hsize (by decide)

end Producers

end Fol.Collections
