/-
Fol.Collections.Iteration — `collection-seq`, `collection-reduce` and `collection-lazy-seq` of
a `<vector>`.

Two iterators walk the trie. `%vec-t-iterator`, under the eager operations, finds the start
of the tail from `count - 1`, as `%vec-t-ref` does. `pvec-leaf-for`, under the lazy one, clears
the low bits of `count`: where the count is a multiple of 32 that is the count itself, and the
last block is looked for in the tree although it is the tail. Both iterators answer `:eof` at
their end, so that an element `:eof` ends the iteration.
-/
import Fol.Collections.LazySeq
import Fol.Collections.Making
import Fol.VecTrie.Bounds

namespace Fol.Collections

open VecTrie
open Making (Objects makeVector vectorSeq_eq_iff takeWhile_ne_eq_self)
open Transients (vecSeq vecSeq_of_represents)

variable {α β : Type}

/-! ## §1 Eager -/

/-- The answers of the closure of `%vec-t-iterator` to its first `n` calls. -/
def vecTCalls (v : VecT α) : Nat → VecTIterator α → Answers α
  | 0, _ => []
  | n + 1, it => (iteratorNext v it).1 :: vecTCalls v n (iteratorNext v it).2

/-- The answers in front of the end: there is one for each element. -/
def vecTAnswers (v : VecT α) : Answers α := vecTCalls v v.count (vecTIterator v)

section Eager

variable [DecidableEq α] (eof : α)

/-- `collection-seq` of a `<vector>`. -/
def vectorSeq (v : VecT α) : Option (List α) :=
  (loopAnswers eof (fun result val => val :: result) [] (vecTAnswers v)).map List.reverse

/-- `collection-reduce` of a `<vector>`. -/
def vectorReduce (fn : β → α → β) (init : β) (v : VecT α) : Option β :=
  loopAnswers eof fn init (vecTAnswers v)

end Eager

theorem vecTCalls_eq {v : VecT α} {xs : List α} (R : v.Represents xs) (n : Nat)
    {it : VecTIterator α} (hn : it.index + n = xs.length) (hcur : Cached xs it) :
    vecTCalls v n it = (xs.drop it.index).map some := by
  induction n generalizing it with
  | zero => simp [vecTCalls, List.drop_eq_nil_of_le (by omega : xs.length ≤ it.index)]
  | succ n ih =>
    have hlt : it.index < xs.length := by omega
    obtain ⟨hval, hindex, hcached⟩ := iteratorNext_spec R hcur hlt
    rw [vecTCalls, ih (by omega) hcached, hval, hindex, List.drop_eq_getElem_cons hlt,
      List.map_cons]

/-- The iterator answers every element, tree and tail, and leaves no array. -/
theorem vecTAnswers_eq {v : VecT α} {xs : List α} (R : v.Represents xs) :
    vecTAnswers v = xs.map some :=
  vecTCalls_eq R v.count (by simp [vecTIterator, R.choose_spec.len]) (cached_vecTIterator R)

section Eager

variable [DecidableEq α] (eof : α) {v : VecT α} {xs : List α}

theorem vectorSeq_of_represents (R : v.Represents xs) :
    vectorSeq eof v = some (xs.takeWhile (· ≠ eof)) := by
  simp [vectorSeq, vecTAnswers_eq R, loopAnswers_map_some]

theorem vectorReduce_of_represents (R : v.Represents xs) (fn : β → α → β) (init : β) :
    vectorReduce eof fn init v = some ((xs.takeWhile (· ≠ eof)).foldl fn init) := by
  rw [vectorReduce, vecTAnswers_eq R, loopAnswers_map_some]

/-! ## §2 Whole -/

/-- The vector of a list is iterated completely exactly if the list does not contain `:eof`
and is not taken for the options of a filled vector. -/
theorem vector_iteration_complete_iff (O : Objects α) (args : List α) :
    (∃ v, makeVector O args = .ok v ∧ vectorSeq O.eof v = some args ∧
      ∀ (β : Type) (fn : β → α → β) (init : β),
        vectorReduce O.eof fn init v = some (args.foldl fn init)) ↔
    O.eof ∉ args ∧ ∀ y, args ≠ [O.initialElement, y] := by
  rw [← vectorSeq_eq_iff]
  refine exists_congr fun v => and_congr_right fun hmake => ?_
  obtain ⟨xs, R⟩ : ∃ xs, v.Represents xs := by
    unfold makeVector at hmake
    split at hmake
    · split at hmake
      · split at hmake
        · cases hmake
          exact ⟨_, makeFilledVecT_represents _ _⟩
        · cases hmake
      · cases hmake
        exact ⟨_, buildVecTFromList_represents _⟩
    · cases hmake
      exact ⟨_, buildVecTFromList_represents _⟩
  rw [vectorSeq_of_represents O.eof R, vecSeq_of_represents R, Option.some.injEq]
  refine and_iff_left_of_imp fun hseq => ?_
  intro β fn init
  rw [vectorReduce_of_represents O.eof R, hseq]

theorem noSize_initialElement :
    (fun _ : String => (none : Option Nat)) ":initial-element" = none := rfl

/-- Objects by the names they are printed with, none of them a number. -/
def namedObjects : Objects String where
  sxhash := String.length
  eof := ":eof"
  initialElement := ":initial-element"
  nil := "nil"
  size _ := none
  size_initialElement := noSize_initialElement

/-- `(collection-seq (make '<vector> :a :eof :b))` is `(:a)`. -/
theorem vector_iteration_stops :
    ¬∃ v, makeVector namedObjects [":a", ":eof", ":b"] = .ok v ∧
      vectorSeq namedObjects.eof v = some [":a", ":eof", ":b"] ∧
      ∀ (β : Type) (fn : β → String → β) (init : β), vectorReduce namedObjects.eof fn init v =
        some ([":a", ":eof", ":b"].foldl fn init) := by
  rintro ⟨v, hmake, hseq, -⟩
  cases hmake
  exact absurd hseq (by decide)

end Eager

/-! ## §3 Lazy -/

/-- A 32-element simple-vector of the trie: the tail, or a leaf of the tree. -/
inductive Chunk (α : Type) where
  | tail (elems : List α)
  | leaf (elems : List α)

def Chunk.elems : Chunk α → List α
  | .tail elems => elems
  | .leaf elems => elems

/-- A cell of the tree as the chunk that is read from it. -/
def leafChunk : Slot α → Option (Chunk α)
  | .leaf elems => some (.leaf elems)
  | _ => none

/-- `pvec-leaf-for`; `none` where the walk does not end in a leaf. -/
def pvecLeafFor (v : VecT α) (index : Nat) : Option (Chunk α) :=
  if index ≥ logandNeg32 v.count then some (.tail v.tail)
  else (descend v.shift index v.root).bind leafChunk

/-- The variables the closure of `pvec-iterator` closes over. -/
structure PvecIterator (α : Type) where
  globalIdx : Nat := 0
  chunkIdx : Nat := 32
  currentChunk : Option (Chunk α) := none

/-- One call of the closure with an element to come; it answers `none` where the chunk has no
such element. -/
def pvecNext (v : VecT α) (it : PvecIterator α) : Option α × PvecIterator α :=
  let currentChunk := if it.chunkIdx = 32 then pvecLeafFor v it.globalIdx else it.currentChunk
  let chunkIdx := if it.chunkIdx = 32 then 0 else it.chunkIdx
  (currentChunk.bind fun c => c.elems[chunkIdx]?,
    { globalIdx := it.globalIdx + 1, chunkIdx := chunkIdx + 1, currentChunk := currentChunk })

def pvecCalls (v : VecT α) : Nat → PvecIterator α → Answers α
  | 0, _ => []
  | n + 1, it => (pvecNext v it).1 :: pvecCalls v n (pvecNext v it).2

/-- `pvec->lazy-seq`, the `collection-lazy-seq` of a `<vector>`. -/
def pvecLazySeq [DecidableEq α] (eof : α) (v : VecT α) : Seq α :=
  buildSeq eof (pvecCalls v v.count {})

/-! ## §4 Chunks -/

/-- The chunk from which `%vec-t-ref` reads an index in range. -/
def refChunk (v : VecT α) (index : Nat) : Option (Chunk α) :=
  if index ≥ tailStart v.count then some (.tail v.tail)
  else (descend v.shift index v.root).bind leafChunk

/-- In front of the tail, and everywhere unless the last block is full, an index has the chunk
it is read from. -/
theorem pvecLeafFor_eq_refChunk {v : VecT α} {index : Nat}
    (h : v.count % 32 ≠ 0 ∨ index < tailStart v.count) :
    pvecLeafFor v index = refChunk v index := by
  have hiff : index ≥ logandNeg32 v.count ↔ index ≥ tailStart v.count := by
    revert h
    unfold tailStart logandNeg32
    rw [and_bitMask, and_bitMask]
    split <;> omega
  rw [pvecLeafFor, refChunk]
  exact if_congr hiff rfl rfl

/-- Where the last block is full the last index is in the tail, and looked for in the tree. -/
theorem pvecLeafFor_ne_refChunk {v : VecT α} (hpos : 0 < v.count) (h : v.count % 32 = 0) :
    pvecLeafFor v (v.count - 1) ≠ refChunk v (v.count - 1) := by
  have htail : v.count - 1 ≥ tailStart v.count := by
    unfold tailStart logandNeg32
    rw [and_bitMask]
    split <;> omega
  have htree : ¬v.count - 1 ≥ logandNeg32 v.count := by
    unfold logandNeg32
    rw [and_bitMask]
    omega
  rw [pvecLeafFor, refChunk, if_pos htail, if_neg htree]
  cases descend v.shift (v.count - 1) v.root with
  | none => simp
  | some s => cases s <;> simp [leafChunk]

/-- The chunk of an index holds the elements of its block. -/
theorem refChunk_spec {v : VecT α} {xs : List α} (R : v.Represents xs) {k : Nat} (hk : k % 32 = 0)
    (_ : k < xs.length) :
    ∃ c, refChunk v k = some c ∧
      ∀ j, k ≤ j → j / 32 = k / 32 → j < xs.length → c.elems[j % 32]? = xs[j]? := by
  have hblock (j : Nat) (hle : k ≤ j) (hdiv : j / 32 = k / 32) (hj : j < xs.length) :
      (leafAt v k)[j % 32]? = xs[j]? := leafAt_spec R hk hle (by omega) hj
  obtain ⟨ls, S⟩ := R
  have hlen := S.len
  have hsplit := S.split
  have hle := tailLength_le v.count
  unfold leafAt at hblock
  unfold refChunk
  rw [vecTTailOff_eq hsplit] at hblock
  rw [tailStart_eq hsplit]
  by_cases htail : k ≥ ls.length * 32
  · simp only [if_pos htail] at hblock ⊢
    exact ⟨_, rfl, hblock⟩
  · simp only [if_neg htail] at hblock ⊢
    obtain ⟨l, hdesc, -⟩ := S.tree.descend (show k / 32 < ls.length by omega)
    simp only [hdesc] at hblock ⊢
    exact ⟨_, rfl, hblock⟩

/-! ## §5 Agree -/

/-- The iterator is at the end of a chunk, or in the chunk of its index. -/
def ChunkCached (xs : List α) (it : PvecIterator α) : Prop :=
  (it.chunkIdx = 32 ∧ it.globalIdx % 32 = 0) ∨
    (it.chunkIdx = it.globalIdx % 32 ∧ ∃ c, it.currentChunk = some c ∧
      ∀ j, it.globalIdx ≤ j → j / 32 = it.globalIdx / 32 → j < xs.length →
        c.elems[j % 32]? = xs[j]?)

/-- One call answers the next element and stays in the chunk, or at its end. -/
theorem pvecNext_spec {v : VecT α} {xs : List α} (R : v.Represents xs) {it : PvecIterator α}
    (h : v.count % 32 ≠ 0 ∨ it.globalIdx < tailStart v.count) (hcur : ChunkCached xs it)
    (hlt : it.globalIdx < xs.length) :
    (pvecNext v it).1 = some xs[it.globalIdx] ∧ (pvecNext v it).2.globalIdx = it.globalIdx + 1 ∧
      ChunkCached xs (pvecNext v it).2 := by
  obtain ⟨c, hchunk, hidx, hc⟩ : ∃ c,
      (if it.chunkIdx = 32 then pvecLeafFor v it.globalIdx else it.currentChunk) = some c ∧
      (if it.chunkIdx = 32 then 0 else it.chunkIdx) = it.globalIdx % 32 ∧
      ∀ j, it.globalIdx ≤ j → j / 32 = it.globalIdx / 32 → j < xs.length →
        c.elems[j % 32]? = xs[j]? := by
    rcases hcur with ⟨hend, hmod⟩ | ⟨hidx, c, hchunk, hc⟩
    · obtain ⟨c, hchunk, hc⟩ := refChunk_spec R hmod hlt
      rw [if_pos hend, if_pos hend, pvecLeafFor_eq_refChunk h]
      exact ⟨c, hchunk, hmod.symm, hc⟩
    · have hne : ¬it.chunkIdx = 32 := by omega
      rw [if_neg hne, if_neg hne]
      exact ⟨c, hchunk, hidx, hc⟩
  unfold pvecNext
  rw [hchunk, hidx]
  refine ⟨?_, rfl, ?_⟩
  · show c.elems[it.globalIdx % 32]? = _
    rw [hc _ le_rfl rfl hlt, List.getElem?_eq_getElem hlt]
  · by_cases hnext : (it.globalIdx + 1) % 32 = 0
    · exact .inl ⟨show it.globalIdx % 32 + 1 = 32 by omega, hnext⟩
    · refine .inr ⟨show it.globalIdx % 32 + 1 = (it.globalIdx + 1) % 32 by omega, c, rfl, ?_⟩
      intro j hle hdiv hj
      replace hle : it.globalIdx + 1 ≤ j := hle
      replace hdiv : j / 32 = (it.globalIdx + 1) / 32 := hdiv
      exact hc j (by omega) (by omega) hj

theorem pvecCalls_eq {v : VecT α} {xs : List α} (R : v.Represents xs) (h : v.count % 32 ≠ 0)
    (n : Nat) {it : PvecIterator α} (hn : it.globalIdx + n = xs.length) (hcur : ChunkCached xs it) :
    pvecCalls v n it = (xs.drop it.globalIdx).map some := by
  induction n generalizing it with
  | zero => simp [pvecCalls, List.drop_eq_nil_of_le (by omega : xs.length ≤ it.globalIdx)]
  | succ n ih =>
    have hlt : it.globalIdx < xs.length := by omega
    obtain ⟨hval, hindex, hcached⟩ := pvecNext_spec R (.inl h) hcur hlt
    rw [pvecCalls, ih (by omega) hcached, hval, hindex, List.drop_eq_getElem_cons hlt,
      List.map_cons]

section Agree

variable [DecidableEq α]

/-- Forcing the lazy sequence gives what the eager one lists, and every index in range is
read from the chunk that `%vec-t-ref` reads it from. -/
structure LazyAgrees (eof : α) (v : VecT α) : Prop where
  seq : collectionSeq (pvecLazySeq eof v) = vectorSeq eof v
  chunk : ∀ index, index < v.count → pvecLeafFor v index = refChunk v index

/-- Lazy and eager iteration agree unless the count is a positive multiple of 32. -/
theorem lazy_agrees_iff (eof : α) {v : VecT α} (hv : Built v) :
    LazyAgrees eof v ↔ v.count = 0 ∨ v.count % 32 ≠ 0 := by
  obtain ⟨xs, R⟩ := hv.represents
  constructor
  · intro h
    by_contra hcount
    rw [not_or, not_not] at hcount
    exact pvecLeafFor_ne_refChunk (by omega) hcount.2 (h.chunk _ (by omega))
  · rintro (hzero | h)
    · refine ⟨?_, fun index hlt => absurd hlt (by omega)⟩
      simp [pvecLazySeq, vectorSeq, vecTAnswers, hzero, pvecCalls, vecTCalls, buildSeq,
        loopAnswers, collectionSeq]
    · refine ⟨?_, fun index _ => pvecLeafFor_eq_refChunk (.inl h)⟩
      have hcalls : pvecCalls v v.count {} = xs.map some :=
        pvecCalls_eq R h v.count (by simpa using R.choose_spec.len) (.inl ⟨rfl, rfl⟩)
      rw [pvecLazySeq, hcalls, collectionSeq_buildSeq, vectorSeq, vecTAnswers_eq R]

theorem lazy_agrees_iff_conj :
    LazyAgrees 0 (vecTConj (Start.filled 64 7).build 1) ↔
      (vecTConj (Start.filled 64 7).build 1).count = 0 ∨
        (vecTConj (Start.filled 64 7).build 1).count % 32 ≠ 0 :=
  lazy_agrees_iff 0 (.conj 1 (.start (.filled 64 7)))

/-- A vector of 32 elements has no tree, and its lazy sequence signals an error. -/
theorem not_lazy_agrees : ¬LazyAgrees 0 (Start.filled 32 7).build := by
  intro h
  have hchunk : pvecLeafFor (Start.filled 32 7).build 0 = none := by
    rw [pvecLeafFor, if_neg (by decide)]
    unfold descend
    rfl
  have hlazy : collectionSeq (pvecLazySeq 0 (Start.filled 32 7).build) = none := by
    show collectionSeq (buildSeq 0 (pvecCalls (Start.filled 32 7).build 32 {})) = none
    rw [pvecCalls, pvecNext]
    simp [hchunk, buildSeq, collectionSeq]
  rw [h.seq, vectorSeq_of_represents 0 (Start.represents _)] at hlazy
  cases hlazy

end Agree

end Fol.Collections
