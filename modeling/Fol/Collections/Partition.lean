/-
Fol.Collections.Partition — `partition`, `partition-all` and its transducer.

The two loops over a sequence differ in how they make a vector of a group: `partition` passes the
elements to `make`, `partition-all` builds the vector of the list. The transducer calls `vec`, which
passes them to `make`.
-/
import Fol.Collections.Making

namespace Fol.Collections

open Making (Objects)

variable {α : Type}

/-! ## §1 Loops -/

inductive PartitionError where
  | negative
  | notASize
deriving DecidableEq

/-- The groups, or an error; `none` while the fuel does not suffice. -/
abbrev Outcome (α : Type) := Option (Except PartitionError (List (List α)))

/-- The loop of `partition` and `partition-all`; `subseq` refuses a negative end. -/
def chop (makeGroup : List α → Except PartitionError (List α)) (n : Int) : Nat → List α → Outcome α
  | 0, _ => none
  | fuel + 1, seq =>
    if seq = [] then some (.ok [])
    else if n < 0 then some (.error .negative)
    else
      match makeGroup (seq.take (min n.toNat seq.length)) with
      | .ok group => (chop makeGroup n fuel (seq.drop n.toNat)).map (·.map (group :: ·))
      | .error e => some (.error e)

def partitionAll (n : Int) (fuel : Nat) (seq : List α) : Outcome α := chop .ok n fuel seq

section

variable [DecidableEq α] (O : Objects α)

/-- `make` of `<vector>`. A vector is the list of its elements. -/
def vector : List α → Except PartitionError (List α)
  | [a, b] =>
    if a = O.initialElement then
      match O.size b with
      | some n => .ok (List.replicate n a)
      | none => .error .notASize
    else .ok [a, b]
  | args => .ok args

def partition (n : Int) (fuel : Nat) (seq : List α) : Outcome α := chop (vector O) n fuel seq

/-- The reducing function of `partition-all` over the inputs, and its completion: the groups it
passes on. -/
def bufferLoop (n : Nat) (buffer : List α) : List α → Except PartitionError (List (List α))
  | [] => if buffer.length > 0 then (vector O buffer).map ([·]) else .ok []
  | input :: rest =>
    let buffer := buffer ++ [input]
    if buffer.length = n then do
      let res ← vector O buffer
      return res :: (← bufferLoop n [] rest)
    else bufferLoop n buffer rest

/-- `(into [] (partition-all n) coll)`; `make-array` refuses a negative dimension. -/
def partitionAllTransducer (n : Int) (seq : List α) : Except PartitionError (List (List α)) :=
  if n < 0 then .error .negative else bufferLoop O n.toNat [] seq

end

/-! ## §2 Chunks -/

/-- The sequence cut after every `k + 1` elements. -/
def chunks (k : Nat) : List α → List (List α)
  | [] => []
  | x :: xs => (x :: xs.take k) :: chunks k (xs.drop k)
termination_by seq => seq.length
decreasing_by simp only [List.length_drop, List.length_cons]; omega

variable {k fuel : Nat} {seq buffer : List α} {makeGroup : List α → Except PartitionError (List α)}

theorem chunks_append (h : buffer.length = k + 1) (seq : List α) :
    chunks k (buffer ++ seq) = buffer :: chunks k seq := by
  cases buffer with
  | nil => cases h
  | cons x xs =>
    obtain rfl : xs.length = k := by simpa using h
    rw [List.cons_append, chunks, List.take_left, List.drop_left]

theorem chunks_short (hne : buffer ≠ []) (h : buffer.length ≤ k + 1) :
    chunks k buffer = [buffer] := by
  cases buffer with
  | nil => exact absurd rfl hne
  | cons x xs =>
    have hlen : xs.length ≤ k := by simpa using h
    rw [chunks, List.take_of_length_le hlen, List.drop_eq_nil_of_le hlen, chunks]

/-- Nothing is lost, and every chunk but the last is full. -/
theorem chunks_spec (k : Nat) (seq : List α) : (chunks k seq).flatten = seq ∧
    (∀ g ∈ (chunks k seq).dropLast, g.length = k + 1) ∧ ∀ g ∈ chunks k seq, 1 ≤ g.length ∧
    g.length ≤ k + 1 := by
  fun_induction chunks k seq with
  | case1 => simp
  | case2 x xs ih =>
    obtain ⟨hflat, hfull, hsize⟩ := ih
    refine ⟨by simp [hflat], ?_, by simpa using hsize⟩
    cases hrest : chunks k (xs.drop k) with
    | nil => simp
    | cons g gs =>
      rw [hrest] at hfull
      have hlong : k < xs.length := by
        by_contra hshort
        rw [List.drop_eq_nil_of_le (Nat.not_lt.mp hshort), chunks] at hrest
        cases hrest
      simpa [Nat.min_eq_left hlong.le] using hfull

theorem chop_cons (x : α) (xs : List α) : chop makeGroup (k + 1 : Nat) (fuel + 1) (x :: xs) =
    match makeGroup (x :: xs.take k) with
    | .ok group => (chop makeGroup (k + 1 : Nat) fuel (xs.drop k)).map (·.map (group :: ·))
    | .error e => some (.error e) := by
  have htake : (x :: xs).take (min (k + 1) (x :: xs).length) = x :: xs.take k := by
    rw [← List.take_take, List.take_of_length_le (Nat.le_refl (x :: xs).length),
      List.take_succ_cons]
  rw [chop, if_neg (by simp), if_neg (by omega), Int.toNat_natCast, htake, List.drop_succ_cons]

/-- Where the vector of every chunk has its elements the loop returns the chunks. -/
theorem chop_eq (h : ∀ c ∈ chunks k seq, makeGroup c = .ok c) (hfuel : seq.length < fuel) :
    chop makeGroup (k + 1 : Nat) fuel seq = some (.ok (chunks k seq)) := by
  induction fuel generalizing seq with
  | zero => cases hfuel
  | succ fuel ih =>
    cases seq with
    | nil => simp [chop, chunks]
    | cons x xs =>
      rw [chunks] at h ⊢
      rw [chop_cons, h _ List.mem_cons_self]
      have hlen := hfuel
      rw [List.length_cons] at hlen
      have hrest :
        chop makeGroup (k + 1 : Nat) fuel (xs.drop k) = some (.ok (chunks k (xs.drop k))) :=
        ih (fun c hc => h c (List.mem_cons_of_mem _ hc)) (by rw [List.length_drop]; omega)
      simp only [hrest]
      rfl

/-- And nowhere else. -/
theorem makeGroup_of_chop (h : chop makeGroup (k + 1 : Nat) fuel seq = some (.ok (chunks k seq))) :
    ∀ c ∈ chunks k seq, makeGroup c = .ok c := by
  induction fuel generalizing seq with
  | zero => cases h
  | succ fuel ih =>
    cases seq with
    | nil => simp [chunks]
    | cons x xs =>
      rw [chunks] at h ⊢
      rw [chop_cons] at h
      cases hgroup : makeGroup (x :: xs.take k) with
      | error e =>
        rw [hgroup] at h
        cases h
      | ok group =>
        simp only [hgroup] at h
        obtain ⟨r, hr, hmap⟩ := Option.map_eq_some_iff.mp h
        cases r with
        | error e => cases hmap
        | ok groups =>
          obtain ⟨rfl, rfl⟩ := List.cons.inj (Except.ok.inj hmap)
          intro c hc
          rcases List.mem_cons.mp hc with rfl | hc
          · exact hgroup
          · exact ih hr c hc

theorem bufferLoop_eq [DecidableEq α] (O : Objects α)
    (h : ∀ c ∈ chunks k (buffer ++ seq), vector O c = .ok c) (hlen : buffer.length ≤ k) :
    bufferLoop O (k + 1) buffer seq = .ok (chunks k (buffer ++ seq)) := by
  induction seq generalizing buffer with
  | nil =>
    rw [List.append_nil] at h ⊢
    cases hbuffer : buffer with
    | nil => simp [bufferLoop, chunks]
    | cons x xs =>
      rw [hbuffer] at h hlen
      have hshort := chunks_short (by simp) (Nat.le_succ_of_le hlen)
      rw [bufferLoop, if_pos (by simp), h _ (by simp [hshort]), hshort]
      rfl
  | cons x xs ih =>
    have happend : buffer ++ x :: xs = (buffer ++ [x]) ++ xs := by simp
    rw [happend] at h ⊢
    rw [bufferLoop]
    split
    · next hfull =>
      rw [chunks_append hfull] at h ⊢
      have hrest : bufferLoop O (k + 1) [] xs = .ok (chunks k xs) :=
        ih (fun c hc => h c (List.mem_cons_of_mem _ hc)) (Nat.zero_le _)
      rw [h _ List.mem_cons_self, hrest]
      rfl
    · next hpart =>
      refine ih h ?_
      rw [List.length_append, List.length_singleton] at hpart ⊢
      omega

/-! ## §3 Result -/

/-- The loop ends with this. -/
def Ends (loop : Nat → Outcome α) (r : Except PartitionError (List (List α))) : Prop :=
  ∃ n, ∀ fuel ≥ n, loop fuel = some r

/-- The loops end, and from 1 on they and the transducer cut the sequence into the same groups, all
full but the last. The transducer runs through its inputs, so it always ends. -/
structure Partitions [DecidableEq α] (O : Objects α) (n : Int) (seq : List α) : Prop where
  ends : (∃ r, Ends (partition O n · seq) r) ∧ ∃ r, Ends (partitionAll n · seq) r
  groups : 1 ≤ n → ∃ groups, Ends (partition O n · seq) (.ok groups) ∧
    Ends (partitionAll n · seq) (.ok groups) ∧
    partitionAllTransducer O n seq = .ok groups ∧ groups.flatten = seq ∧
    (∀ g ∈ groups.dropLast, g.length = n) ∧ ∀ g ∈ groups.getLast?, 1 ≤ g.length ∧ g.length ≤ n

theorem vector_eq_iff [DecidableEq α] (O : Objects α) {c : List α} :
    vector O c = .ok c ↔ ∀ y, c ≠ [O.initialElement, y] := by
  unfold vector
  split
  · next a b =>
    split
    · next ha =>
      subst ha
      refine iff_of_false ?_ fun h => h b rfl
      split
      · next n hn =>
        intro h
        have hb : b ∈ List.replicate n O.initialElement := by
          rw [Except.ok.inj h]
          simp
        rw [List.eq_of_mem_replicate hb, O.size_initialElement] at hn
        cases hn
      · simp
    · next ha => simp [ha]
  · next hne => simpa using fun y h => hne _ y h

theorem Ends.unique {loop : Nat → Outcome α} {r r' : Except PartitionError (List (List α))}
    (h : Ends loop r) (h' : Ends loop r') : r = r' := by
  obtain ⟨n, hn⟩ := h
  obtain ⟨n', hn'⟩ := h'
  exact Option.some.inj ((hn _ (Nat.le_max_left n n')).symm.trans (hn' _ (Nat.le_max_right n n')))

theorem ends_chop (h : ∀ c ∈ chunks k seq, makeGroup c = .ok c) :
    Ends (chop makeGroup (k + 1 : Nat) · seq) (.ok (chunks k seq)) :=
    ⟨seq.length + 1, fun _ hfuel => chop_eq h hfuel⟩

/-- At zero the loop stays where it is. -/
theorem chop_zero (hmake : makeGroup [] = .ok []) (hseq : seq ≠ []) :
    chop makeGroup 0 fuel seq = none := by
  induction fuel with
  | zero => rfl
  | succ fuel ih => simp [chop, hseq, hmake, ih]

theorem ends_of_not_pos {n : Int} (hn : n < 0 ∨ seq = []) :
    ∃ r, Ends (chop makeGroup n · seq) r := by
  by_cases hseq : seq = []
  · refine ⟨.ok [], 1, fun fuel hfuel => ?_⟩
    cases fuel with
    | zero => cases hfuel
    | succ fuel => simp [chop, hseq]
  · refine ⟨.error .negative, 1, fun fuel hfuel => ?_⟩
    cases fuel with
    | zero => cases hfuel
    | succ fuel => simp [chop, hseq, hn.resolve_right hseq]

theorem Partitions.eq_nil [DecidableEq α] {O : Objects α} (h : Partitions O 0 seq) : seq = [] := by
  by_contra hseq
  obtain ⟨r, m, hm⟩ := h.ends.1
  have hloop : chop (vector O) 0 m seq = some r := hm m le_rfl
  rw [chop_zero (show vector O [] = .ok [] from rfl) hseq] at hloop
  cases hloop

/-- Numbers; 0 stands for `:initial-element`. -/
def numbered : Objects Nat where
  sxhash n := n
  eof := 1
  initialElement := 0
  nil := 2
  size n := if n = 0 then none else some n
  size_initialElement := rfl

end Fol.Collections
