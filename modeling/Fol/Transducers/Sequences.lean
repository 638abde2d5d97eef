/-
Fol.Transducers.Sequences — the sequence forms of merged-functions.lisp.

Each form starts from `(collection-seq coll)`, here the list `seq`, and makes a vector of the
list it returns. `cat` has no sequence form of its own: the concatenation of the elements'
elements stands for it.
-/
import Fol.Transducers.Transducers
import Mathlib.Data.List.Basic

namespace Fol.Sequences

open Fol.Transducers (Values)

variable {V : Type}

/-! ## §1 Without variables -/

section

variable (E : Values V)

def map (fn : V → V) (seq : List V) : List V := seq.map fn

def mapcat (fn : V → V) (seq : List V) : List V := ((seq.map fn).map E.collectionSeq).flatten

def cat (seq : List V) : List V := (seq.map E.collectionSeq).flatten

/-- `remove-if-not`. -/
def filter (pred : V → V) (seq : List V) : List V := seq.filter fun x => E.truthy (pred x)

/-- `remove-if`. -/
def remove (pred : V → V) (seq : List V) : List V := seq.filter fun x => !E.truthy (pred x)

def keep (fn : V → V) (seq : List V) : List V := (seq.map fn).filter E.truthy

def take (n : Nat) (seq : List V) : List V := seq.take (min n seq.length)

def drop (n : Nat) (seq : List V) : List V := seq.drop n

def takeWhile (pred : V → V) (seq : List V) : List V := seq.takeWhile fun x => E.truthy (pred x)

/-- The loop of `drop-while`, over the tails. -/
def dropWhile (pred : V → V) : List V → List V
  | [] => []
  | x :: xs => if E.truthy (pred x) then dropWhile pred xs else x :: xs

/-- The loops `for elem in seq for i from 0`. -/
def indexed {β : Type} (f : Int → V → List β) : Int → List V → List β
  | _, [] => []
  | i, x :: xs => f i x ++ indexed f (i + 1) xs

def mapIndexed (fn : Int → V → V) (seq : List V) : List V := indexed (fun i x => [fn i x]) 0 seq

def keepIndexed (fn : Int → V → V) (seq : List V) : List V :=
  indexed (fun i x => if E.truthy (fn i x) then [fn i x] else []) 0 seq

def takeNth (n : Nat) (seq : List V) : List V :=
  indexed (fun i x => if i % n = 0 then [x] else []) 0 seq

def interpose (sep : V) : List V → List V
  | [] => []
  | x :: xs => x :: xs.flatMap fun elem => [sep, elem]

end

/-! ## §2 With variables -/

section

variable (E : Values V)

/-- The loop of `distinct`: `seen` is the hash table. -/
def distinctLoop : List V → List V → List V
  | _, [] => []
  | seen, x :: xs =>
    if E.contains seen x then distinctLoop seen xs else x :: distinctLoop (seen ++ [x]) xs

def distinct (seq : List V) : List V := distinctLoop E [] seq

/-- The loop of `dedupe`: `prev` is none while it is the sentinel, a fresh list. -/
def dedupeLoop : Option V → List V → List V
  | _, [] => []
  | none, x :: xs => x :: dedupeLoop (some x) xs
  | some prev, x :: xs =>
    if E.equal x prev then dedupeLoop (some prev) xs else x :: dedupeLoop (some x) xs

def dedupe (seq : List V) : List V := dedupeLoop E none seq

/-- The loop of `partition-all`; `make` is what is made of a group. -/
def groups {β : Type} (make : List V → β) (n : Nat) (hn : 0 < n) : List V → List β
  | [] => []
  | x :: xs => make ((x :: xs).take n) :: groups make n hn ((x :: xs).drop n)
termination_by seq => seq.length
decreasing_by simp; omega

def partitionAll (n : Nat) (hn : 0 < n) (seq : List V) : List V := groups E.makeVec n hn seq

/-- The loop of `partition-by`: `currentKey` is none while it is the sentinel. -/
def partitionLoop {β : Type} (make : List V → β) (fn : V → V) : List V → Option V → List V → List β
  | currentGroup, _, [] => if currentGroup = [] then [] else [make currentGroup]
  | currentGroup, none, x :: xs => partitionLoop make fn (currentGroup ++ [x]) (some (fn x)) xs
  | currentGroup, some currentKey, x :: xs =>
    if E.equal (fn x) currentKey then partitionLoop make fn (currentGroup ++ [x]) (some (fn x)) xs
    else make currentGroup :: partitionLoop make fn [x] (some (fn x)) xs

def partitionBy (fn : V → V) (seq : List V) : List V := partitionLoop E E.makeVec fn [] none seq

theorem groups_map {β : Type} (make : List V → β) {n : Nat} (hn : 0 < n) (seq : List V) :
    groups make n hn seq = (groups id n hn seq).map make := by
  fun_induction groups make n hn seq with
  | case1 => simp [groups]
  | case2 x xs ih => rw [groups, List.map_cons, ih, id]

theorem partitionLoop_map {β : Type} (make : List V → β) (fn : V → V) (group : List V)
    (key : Option V) (seq : List V) :
    partitionLoop E make fn group key seq = (partitionLoop E id fn group key seq).map make := by
  induction seq generalizing group key with
  | nil => by_cases h : group = [] <;> simp [partitionLoop, h]
  | cons x seq ih =>
    cases key with
    | none => exact ih _ _
    | some key => cases h : E.equal (fn x) key <;> simp [partitionLoop, h, ih (_ ++ _), ih [x]]

end

end Fol.Sequences
