/-
Fol.SortedDict.Listing — `btree-to-list` of a tree that `btree-bulk-load` built from a flat list of
keys and values.

The tree holds, in order, the last pair of every class of equal keys. `do-btree` knows the end of
the iteration by the key `:eof`, so the listing stops at a pair with that key.
-/
import Fol.Collections.Making
import Fol.SortedDict.BulkLoad
import Fol.SortedDict.Iterator

namespace Fol.SortedDict

open Lib Std
open Collections.Making (pairsOf)

variable {α : Type}

/-! ## §1 Listing -/

/-- `btree-to-list`: what the iterator returns, up to the key `:eof`. -/
def btreeToList [DecidableEq α] (eof : α) (d : BTreeDict α α) : List (α × α) :=
  (iteratorItems (iteratorStart d.root)).takeWhile fun e => e.1 ≠ eof

variable (cmp : α → α → Ordering)

/-- The last pair whose key the comparator calls equal. -/
def lastOf (pairs : List (α × α)) (key : α) : Option (α × α) :=
  pairs.reverse.find? fun p => (cmp p.1 key).isEq

/-- Increasing keys, one entry for every class of equal keys of the pairs, with the value of the
last pair of the class. -/
structure LastWins (pairs es : List (α × α)) : Prop where
  increasing : es.Pairwise fun a b => cmp a.1 b.1 = .lt
  covered : ∀ p ∈ pairs, ∃! e, e ∈ es ∧ cmp e.1 p.1 = .eq
  last : ∀ e ∈ es, (lastOf cmp pairs e.1).map Prod.snd = some e.2

/-! ## §2 Classes -/

section Classes

variable {cmp} [TransCmp cmp]

/-- No two entries of a sorted list have equal keys. -/
theorem eq_of_sorted {es : List (α × α)} (h : Sorted cmp es) {a b : α × α} (ha : a ∈ es)
    (hb : b ∈ es) (hab : cmp a.1 b.1 = .eq) : a = b := by
  by_contra hne
  have hlt : cmp a.1 b.1 = .lt ∨ cmp b.1 a.1 = .lt := by
    induction es with
    | nil => simp at ha
    | cons e es ih =>
      obtain ⟨hhead, htail⟩ := List.pairwise_cons.mp h
      rcases List.mem_cons.mp ha with rfl | hatail
      · rcases List.mem_cons.mp hb with rfl | hbtail
        · exact absurd rfl hne
        · exact .inl (hhead b hbtail)
      · rcases List.mem_cons.mp hb with rfl | hbtail
        · exact .inr (hhead a hatail)
        · exact ih htail hatail hbtail
  rcases hlt with hlt | hlt
  · rw [hab] at hlt
    cases hlt
  · rw [OrientedCmp.eq_symm hab] at hlt
    cases hlt

theorem find?_of_mem {es : List (α × α)} (h : Sorted cmp es) {e : α × α} (he : e ∈ es) {key : α}
    (hk : cmp e.1 key = .eq) : es.find? (fun p => (cmp p.1 key).isEq) = some e := by
  have hsome : (es.find? fun p => (cmp p.1 key).isEq).isSome := by
    rw [List.find?_isSome]
    exact ⟨e, he, Ordering.isEq_iff_eq_eq.mpr hk⟩
  obtain ⟨e', he'⟩ := Option.isSome_iff_exists.mp hsome
  have hfound := List.find?_some he'
  have hkey' : cmp e'.1 key = .eq := Ordering.isEq_iff_eq_eq.mp hfound
  rw [he', eq_of_sorted h (List.mem_of_find?_eq_some he') he
    (TransCmp.eq_trans hkey' (OrientedCmp.eq_symm hk))]

/-- Sorted entries that agree with the last pairs. -/
theorem lastWins_of_sorted {pairs es : List (α × α)} (h : Sorted cmp es)
    (hlast : ∀ k, es.find? (fun p => (cmp p.1 k).isEq) = lastOf cmp pairs k) :
    LastWins cmp pairs es := by
  refine ⟨h, fun p hp => ?_, fun e he => ?_⟩
  · have hsome : (lastOf cmp pairs p.1).isSome := by
      rw [lastOf, List.find?_isSome]
      exact ⟨p, List.mem_reverse.mpr hp, Ordering.isEq_iff_eq_eq.mpr ReflCmp.compare_self⟩
    obtain ⟨e, he⟩ := Option.isSome_iff_exists.mp hsome
    rw [← hlast] at he
    have hfound := List.find?_some he
    have hkey : cmp e.1 p.1 = .eq := Ordering.isEq_iff_eq_eq.mp hfound
    refine ⟨e, ⟨List.mem_of_find?_eq_some he, hkey⟩, ?_⟩
    rintro e' ⟨he', hkey'⟩
    exact eq_of_sorted h he' (List.mem_of_find?_eq_some he)
      (TransCmp.eq_trans hkey' (OrientedCmp.eq_symm hkey))
  · rw [← hlast, find?_of_mem h he ReflCmp.compare_self]
    rfl

variable (cmp) in
/-- The entries of the tree are the last pairs of their classes, in order. -/
theorem bulkLoad_entries (pairs : List (α × α)) : ∃ es : List (α × α), Sorted cmp es ∧
    (∀ k, es.find? (fun p => (cmp p.1 k).isEq) = lastOf cmp pairs k) ∧
    iteratorItems (iteratorStart (btreeBulkLoad cmp pairs).root) = es ∧
    (btreeBulkLoad cmp pairs).count = es.length := by
  obtain ⟨unique, hload, hs, hlast⟩ := unique_sorted cmp pairs
  obtain ⟨-, hentries, hcount⟩ := buildBottomUp_spec hs
  rw [hload, iteratorItems_eq_entries]
  exact ⟨unique, hs, hlast, hentries, hcount⟩

end Classes

/-! ## §3 Result -/

variable [DecidableEq α] [TransCmp cmp]

/-- `btree-to-list` of a bulk load sorts, merges equal keys to the last of them and counts them,
exactly when the last key equal to `:eof`, if there is one, is not `:eof` itself. -/
theorem bulkList_iff (eof nil : α) (flat : List α) :
    (LastWins cmp (pairsOf nil flat) (btreeToList eof (btreeBulkLoad cmp (pairsOf nil flat))) ∧
      (btreeBulkLoad cmp (pairsOf nil flat)).count =
        (btreeToList eof (btreeBulkLoad cmp (pairsOf nil flat))).length) ↔
    ∀ p, lastOf cmp (pairsOf nil flat) eof = some p → p.1 ≠ eof := by
  obtain ⟨es, hs, hlast, hitems, hcount⟩ := bulkLoad_entries cmp (pairsOf nil flat)
  rw [btreeToList, hitems, hcount]
  constructor
  · rintro ⟨-, hlen⟩ p hp
    have hall : es.takeWhile (fun e => e.1 ≠ eof) = es :=
      (List.takeWhile_prefix _).eq_of_length hlen.symm
    rw [← hlast] at hp
    simpa using List.takeWhile_eq_self_iff.mp hall p (List.mem_of_find?_eq_some hp)
  · intro h
    have hall : es.takeWhile (fun e => e.1 ≠ eof) = es := by
      rw [List.takeWhile_eq_self_iff]
      intro e he
      have hne : e.1 ≠ eof := by
        intro heq
        have hself : cmp e.1 eof = .eq := by
          rw [heq]
          exact ReflCmp.compare_self
        exact h e (by rw [← hlast, find?_of_mem hs he hself]) heq
      simpa using hne
    rw [hall]
    exact ⟨lastWins_of_sorted hs hlast, rfl⟩

/-- Keys 2 and 1, and 2 again; `:eof` is 0. -/
theorem bulkList_iff_small :
    (LastWins compare (pairsOf 9 [2, 20, 1, 10, 2, 21])
        (btreeToList 0 (btreeBulkLoad compare (pairsOf 9 [2, 20, 1, 10, 2, 21]))) ∧
      (btreeBulkLoad compare (pairsOf 9 [2, 20, 1, 10, 2, 21])).count =
        (btreeToList 0 (btreeBulkLoad compare (pairsOf 9 [2, 20, 1, 10, 2, 21]))).length) ↔
    ∀ p, lastOf compare (pairsOf 9 [2, 20, 1, 10, 2, 21]) 0 = some p → p.1 ≠ (0 : Nat) :=
  bulkList_iff compare 0 9 [2, 20, 1, 10, 2, 21]

/-- The one pair of the key `:eof`, 0 here, is counted and not listed. -/
theorem bulkList_loses_eof : (btreeBulkLoad compare (pairsOf 9 [0, 10])).count = 1 ∧
    btreeToList (0 : Nat) (btreeBulkLoad compare (pairsOf 9 [0, 10])) = [] ∧
    ¬ LastWins compare (pairsOf 9 [0, 10])
    (btreeToList (0 : Nat) (btreeBulkLoad compare (pairsOf 9 [0, 10]))) := by
  obtain ⟨es, -, hlast, hitems, hcount⟩ := bulkLoad_entries compare (pairsOf 9 [0, 10])
  have hone : btreeBulkLoad compare (pairsOf 9 [0, 10]) = buildBottomUp [(0, 10)] := by
    simp [btreeBulkLoad, pairsOf, uniquePairs]
  have hes : es = [(0, 10)] := by
    rw [← hitems, hone, iteratorItems_eq_entries]
    exact (buildBottomUp_spec (List.pairwise_singleton _ _ : Sorted compare [((0 : Nat), 10)])).2.1
  have hnil : btreeToList (0 : Nat) (btreeBulkLoad compare (pairsOf 9 [0, 10])) = [] := by
    rw [btreeToList, hitems, hes]
    rfl
  refine ⟨by rw [hcount, hes]; rfl, hnil, fun hw => ?_⟩
  obtain ⟨e, ⟨he, -⟩, -⟩ := hw.covered (0, 10) (by simp [pairsOf])
  rw [hnil] at he
  simp at he

end Fol.SortedDict
