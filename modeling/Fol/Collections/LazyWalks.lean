/-
Fol.Collections.LazyWalks — `collection-seq` against `collection-lazy-seq` of the collections that
keep more than a trie.

`collection-lazy-seq` walks `dict-storage` in all of them. The sorted collections and
`<dense-int-set>` never fill that slot: their methods make the instance without it, so that it is
the empty trie of its initform.
-/
import Mathlib.Data.Finset.Max
import Mathlib.Data.Nat.Bitwise
import Fol.Collections.LazySeq
import Fol.Collections.Making
import Fol.Collections.OrderedDict
import Fol.HashTrie.Places
import Fol.SortedDict.Iterator
import Fol.SortedDict.Runs

namespace Fol.Collections.LazyWalks

open HashTrie Lib SortedDict VecTrie
open Making (expand sxhash_congr)
open Transients (hamtSeq hamtSeq_eq)

/-! ## §1 Values -/

/-- The objects; those that are `EQUAL` are one object here. A cons is deeper than its car. -/
structure Objects (α : Type) where
  sxhash : α → Nat
  eof : α
  t : α
  int : Nat → α
  cons : α → α → α
  cons_ne_eof (k v : α) : cons k v ≠ eof
  cons_inj {k k' v v' : α} : cons k v = cons k' v' → k = k' ∧ v = v'
  depth : α → Nat
  depth_car (k v : α) : depth k < depth (cons k v)

inductive SortedClass where
  | sortedDict
  | sortedSet
  | intSet
deriving DecidableEq

/-- The slots of an instance that the two methods read. -/
inductive Value (τ α : Type) where
  | orderedDict (d : OrderedDict τ α α)
  | orderedSet (d : OrderedDict τ α α)
  | sorted (cls : SortedClass) (dictStorage : Hamt τ α α) (sortedDictStorage : BTreeDict α α)
  | denseIntSet (dictStorage : Hamt τ α α) (bits : Nat)
  | priorityDict (dictStorage : Hamt τ α α) (sortedDictStorage : BTreeDict (α × α) Unit)
  | bag (dictStorage : Hamt τ α Nat)

section

variable {τ α : Type} [DecidableEq α] (O : Objects α)

/-- The entries the iterator of the tree returns, up to the key `:eof`. -/
def treeEntries (tree : BTreeDict α α) : List (α × α) :=
  (iteratorItems (iteratorStart tree.root)).takeWhile fun e => e.1 ≠ O.eof

/-- The loop of `<dense-int-set>`; `fuel` bounds the bits that are left. `(logand bits (- bits))` is
what `bits` has and `bits - 1` has not. -/
def bitsLoop : Nat → Nat → List Nat
  | 0, _ => []
  | fuel + 1, bits =>
    if bits = 0 then []
    else
      let lowestBit := Nat.ldiff bits (bits - 1)
      lowestBit.log2 :: bitsLoop fuel (Nat.ldiff bits lowestBit)

/-- `collection-seq`. -/
def seq : Value τ α → List α
  | .orderedDict d => (d.collectionSeq O.sxhash O.eof).map fun e => O.cons e.1 e.2
  | .orderedSet d => d.iteratedKeys O.eof
  | .sorted .sortedDict _ tree => (treeEntries O tree).map fun e => O.cons e.1 e.2
  | .sorted _ _ tree => (treeEntries O tree).map Prod.fst
  | .denseIntSet _ bits => (bitsLoop bits bits).map O.int
  | .priorityDict _ tree => (iteratorItems (iteratorStart tree.root)).map fun item =>
      O.cons item.1.2 item.1.1
  | .bag h => expand (hamtSeq h)

/-- `hamt->lazy-seq`, the conses of the entries being `pairs`. -/
def hamtLazySeq (count : Nat) (pairs : List α) : Seq α :=
  buildLazyChain O.eof id count (pairs.map some)

/-- `collection-lazy-seq` of `<set>`. -/
def setLazySeq (h : Hamt τ α α) : Seq α := (hamtSeq h).foldr (fun e rest => lazyCons e.1 rest) .null

/-- `collection-lazy-seq`. -/
def lazySeq : Value τ α → Seq α
  | .orderedDict d =>
      hamtLazySeq O d.dictStorage.count ((hamtSeq d.dictStorage).map fun e => O.cons e.1 e.2)
  | .orderedSet d =>
      hamtLazySeq O d.dictStorage.count ((hamtSeq d.dictStorage).map fun e => O.cons e.1 e.2)
  | .sorted .sortedDict h _ => hamtLazySeq O h.count ((hamtSeq h).map fun e => O.cons e.1 e.2)
  | .sorted _ h _ => setLazySeq h
  | .denseIntSet h _ => setLazySeq h
  | .priorityDict h _ => hamtLazySeq O h.count ((hamtSeq h).map fun e => O.cons e.1 e.2)
  | .bag h => hamtLazySeq O h.count ((hamtSeq h).map fun e => O.cons e.1 (O.int e.2))

/-- Forced, the lazy sequence has the elements of the eager list. -/
def LazyAgrees (c : Value τ α) : Prop := collectionSeq (lazySeq O c) = some (seq O c)

/-! ## §2 Reachable -/

/-- `make` of `<ordered-set>`. -/
def makeOrderedSet [DecidableEq τ] (token : τ) (elements : List α) :
    Except Error (OrderedDict τ α α) :=
  OrderedDict.make O.sxhash token ((firsts [] elements).map fun x => (x, x))

/-- `collection-conj` of `<ordered-set>`. -/
def conjOrderedSet (d : OrderedDict τ α α) (element : α) : Option (OrderedDict τ α α) :=
  match hamtGet O.sxhash d.dictStorage element with
  | some _ => some d
  | none => (hamtAssoc O.sxhash d.dictStorage element O.t).map fun h =>
    { dictStorage := h, storage := vecTConj d.storage element }

/-- An ordered set has `collection-assoc` and `collection-dissoc` of `<ordered-dict>`. -/
inductive SetStep : OrderedDict τ α α → OrderedDict τ α α → Prop where
  | conj {d d' : OrderedDict τ α α} {element : α} (h : conjOrderedSet O d element = some d') :
      SetStep d d'
  | assoc {d d' : OrderedDict τ α α} {key val : α}
      (h : d.collectionAssoc O.sxhash key val = some d') : SetStep d d'
  | dissoc {d : OrderedDict τ α α} (key : α) : SetStep d (d.collectionDissoc O.sxhash O.eof key)

/-- An instance made without `:dict-storage`. -/
def makeSorted (cls : SortedClass) (tree : BTreeDict α α) : Value τ α := .sorted cls {} tree

/-- What `make` and the methods leave. Of the tree of a priority dict and of the bits nothing is
asked. -/
inductive Reachable [DecidableEq τ] : Value τ α → Prop where
  | orderedDict {token : τ} {args : List (α × α)} {ops : List (OrderedDict.Op α α)}
      {d d' : OrderedDict τ α α}
      (hmake : OrderedDict.make O.sxhash token args = .ok d)
      (hrun : OrderedDict.run O.sxhash O.eof d ops = some d') :
      Reachable (.orderedDict d')
  | orderedSet {token : τ} {elements : List α} {d d' : OrderedDict τ α α}
      (hmake : makeOrderedSet O token elements = .ok d)
      (hrun : Relation.ReflTransGen (SetStep O) d d') :
      Reachable (.orderedSet d')
  | sorted {cls : SortedClass} {cmp : α → α → Ordering} {isNil : α → Bool}
      {ops : List (SortedDict.Op α α)}
      {tree : BTreeDict α α} (hrun : SortedDict.run cmp isNil {} ops = some tree) :
      Reachable (makeSorted cls tree)
  | denseIntSet (bits : Nat) : Reachable (.denseIntSet {} bits)
  | priorityDict {ops : List (HashTrie.Op α α)} {h : Hamt τ α α}
      (hrun : HashTrie.run O.sxhash {} ops = some h)
      (tree : BTreeDict (α × α) Unit) : Reachable (.priorityDict h tree)
  | bag {ops : List (HashTrie.Op α Nat)} {h : Hamt τ α Nat}
      (hrun : HashTrie.run O.sxhash {} ops = some h) :
      Reachable (.bag h)

/-- The keys of an ordered dict, all of them before an `:eof`, stand in its trie in the order of the
vector; the items of a priority dict are its entries, and stand in its trie in the order of their
priorities; the others have nothing to list. -/
def Agreeing : Value τ α → Prop
  | .orderedDict d => (∀ k, (hamtGet O.sxhash d.dictStorage k).isSome → k ∈ d.iteratedKeys O.eof) ∧
      (d.iteratedKeys O.eof).Pairwise (Precedes O.sxhash d.dictStorage)
  | .orderedSet d => d.dictStorage.count = 0
  | .sorted _ _ tree => ∀ e ∈ (iteratorItems (iteratorStart tree.root)).head?, e.1 = O.eof
  | .denseIntSet _ bits => bits = 0
  | .priorityDict h tree =>
    let items := (iteratorItems (iteratorStart tree.root)).map fun item => item.1.swap
    (∀ e, e ∈ items ↔ hamtGet O.sxhash h e.1 = some e.2) ∧ items.Pairwise fun e f =>
      Precedes O.sxhash h e.1 f.1
  | .bag h => h.count = 0

/-! ## §3 Tracked -/

variable {O}

/-- All keys of the vector are bound in the trie. -/
structure Tracked (O : Objects α) (d : OrderedDict τ α α) : Prop where
  valid : d.dictStorage.Valid O.sxhash
  keys : ∃ ks, d.storage.Represents ks ∧ ∀ k ∈ ks, bound k (rootEntries d.dictStorage.root) = true

theorem bound_put_of {key k v : α} {es : List (α × α)} (h : k = key ∨ bound k es = true) :
    bound k (put key v es) = true := by
  rw [← lookup_isSome, lookup_put]
  split
  · rfl
  · next hk =>
    rw [lookup_isSome]
    exact h.resolve_left fun heq => hk (beq_iff_eq.mpr heq.symm)

theorem bound_perm {k : α} {es fs : List (α × α)} (h : es.Perm fs) :
    bound k es = bound k fs := h.any_eq

/-- The trie with one key more, and the vector as it was or with that key at the end. -/
theorem Tracked.put {d : OrderedDict τ α α} (hd : Tracked O d) (key val : α) {h : Hamt τ α α}
    (hassoc : hamtAssoc O.sxhash d.dictStorage key val = some h) {storage : VecT α}
    (hstorage : storage = d.storage ∨ storage = vecTConj d.storage key ∨ storage = {}) :
    Tracked O { dictStorage := h, storage := storage } := by
  obtain ⟨h', hassoc', hvalid, hperm⟩ := hamtAssoc_spec (sxhash_congr O.sxhash) hd.valid key val
  obtain rfl : h = h' := Option.some.inj (hassoc.symm.trans hassoc')
  obtain ⟨ks, hks, hbound⟩ := hd.keys
  have hold : ∀ k ∈ ks, bound k (rootEntries h.root) = true := by
    intro k hk
    rw [bound_perm hperm]
    exact bound_put_of (.inr (hbound k hk))
  rcases hstorage with rfl | rfl | rfl
  · exact ⟨hvalid, ks, hks, hold⟩
  · refine ⟨hvalid, ks ++ [key], vecTConj_represents hks key, fun k hk => ?_⟩
    rcases List.mem_append.mp hk with hk | hk
    · exact hold k hk
    · rw [bound_perm hperm]
      exact bound_put_of (.inl (List.mem_singleton.mp hk))
  · exact ⟨hvalid, [], buildVecTFromList_represents [], by simp⟩

theorem Tracked.collectionConj {d d' : OrderedDict τ α α} (hd : Tracked O d) {key val : α}
    (h : d.collectionConj O.sxhash key val = some d') : Tracked O d' := by
  obtain ⟨r, hr, rfl⟩ := Option.map_eq_some_iff.mp h
  refine hd.put key val (by rw [hamtAssoc, hr]; rfl) ?_
  cases r.2
  · exact .inl rfl
  · exact .inr (.inl rfl)

theorem Tracked.collectionAssoc {d d' : OrderedDict τ α α} (hd : Tracked O d) {key val : α}
    (h : d.collectionAssoc O.sxhash key val = some d') : Tracked O d' := by
  obtain ⟨r, hr, rfl⟩ := Option.map_eq_some_iff.mp h
  exact hd.put key val hr (.inr (.inr rfl))

theorem Tracked.iteratedKeys {d : OrderedDict τ α α} (hd : Tracked O d) {k : α}
    (hk : k ∈ d.iteratedKeys O.eof) :
    bound k (rootEntries d.dictStorage.root) = true := by
  obtain ⟨ks, hks, hbound⟩ := hd.keys
  rw [OrderedDict.iteratedKeys, OrderedDict.keyOrder_of_represents hks] at hk
  exact hbound k (List.takeWhile_subset _ hk)

theorem Tracked.collectionDissoc {d : OrderedDict τ α α} (hd : Tracked O d) (key : α) :
    Tracked O (d.collectionDissoc O.sxhash O.eof key) := by
  unfold OrderedDict.collectionDissoc
  split
  · obtain ⟨hvalid, hperm⟩ := hamtDissoc_spec (sxhash_congr O.sxhash) hd.valid key
    refine ⟨hvalid, _, buildVecTFromList_represents _, fun k hk => ?_⟩
    obtain ⟨hk, hne⟩ := List.mem_filter.mp hk
    have hne' : (key == k) = false := by
      rw [beq_eq_false_iff_ne]
      rintro rfl
      simp at hne
    dsimp only
    rw [bound_perm hperm, ← lookup_isSome, lookup_without, if_neg (by simp [hne']), lookup_isSome]
    exact hd.iteratedKeys hk
  · exact hd

theorem tracked_make [DecidableEq τ] {token : τ} {args : List (α × α)} {d : OrderedDict τ α α}
    (h : OrderedDict.make O.sxhash token args = .ok d) : Tracked O d := by
  have hinv := OrderedDict.inv_make (sxhash_congr O.sxhash) h
  refine ⟨hinv.valid, _, hinv.keys, fun k hk => ?_⟩
  obtain ⟨e, he, rfl⟩ := List.mem_map.mp hk
  rw [hinv.enum.bound_iff, lookup_isSome]
  exact List.any_eq_true.mpr ⟨e, he, beq_self_eq_true e.1⟩

theorem tracked_run {d d' : OrderedDict τ α α} (hd : Tracked O d) {ops : List (OrderedDict.Op α α)}
    (h : OrderedDict.run O.sxhash O.eof d ops = some d') : Tracked O d' := by
  have hfold : ∀ {β : Type} {f : OrderedDict τ α α → β → Option (OrderedDict τ α α)},
      (∀ {d d' b}, Tracked O d → f d b = some d' → Tracked O d') →
      ∀ {bs : List β} {d d'}, Tracked O d → bs.foldlM f d = some d' → Tracked O d' := by
    intro β f hf bs
    induction bs with
    | nil =>
      rintro d d' hd h
      cases h
      exact hd
    | cons b bs ih =>
      intro d d' hd h
      rw [List.foldlM_cons] at h
      obtain ⟨d₁, hd₁, h⟩ := Option.bind_eq_some_iff.mp h
      exact ih (hf hd hd₁) h
  refine hfold (fun {d d' op} hd h => ?_) hd h
  cases op with
  | conj key val => exact hd.collectionConj h
  | collectionAssoc key val => exact hd.collectionAssoc h
  | assoc key val kvs => exact hfold (fun hd h => hd.collectionConj h) hd h
  | merge colls => exact hfold (fun hd h => hd.collectionAssoc h) hd h
  | dissoc key =>
    cases h
    exact hd.collectionDissoc key

theorem Tracked.setStep {d d' : OrderedDict τ α α} (hd : Tracked O d) (h : SetStep O d d') :
    Tracked O d' := by
  cases h with
  | @conj _ element h =>
    unfold conjOrderedSet at h
    split at h
    · cases h
      exact hd
    · obtain ⟨h', hassoc, rfl⟩ := Option.map_eq_some_iff.mp h
      exact hd.put element O.t hassoc (.inr (.inl rfl))
  | assoc h => exact hd.collectionAssoc h
  | dissoc key => exact hd.collectionDissoc key

/-! ## §4 Chains -/

theorem collectionSeq_hamtLazySeq {pairs : List α} (h : ∀ x ∈ pairs, x ≠ O.eof) :
    collectionSeq (hamtLazySeq O pairs.length pairs) = some pairs := by
  rw [hamtLazySeq, collectionSeq_buildLazyChain O.eof (fun n => Nat.succ_ne_zero n),
    List.takeWhile_eq_self_iff.mpr]
  simpa using h

/-- The chain over a valid trie lists its entries. -/
theorem collectionSeq_trie {ν : Type} {h : Hamt τ α ν} (hv : h.Valid O.sxhash) (f : ν → α) :
    collectionSeq (hamtLazySeq O h.count ((hamtSeq h).map fun e => O.cons e.1 (f e.2))) =
      some ((rootEntries h.root).map fun e => O.cons e.1 (f e.2)) := by
  rw [hamtSeq_eq hv, hv.count, ← List.length_map fun e : α × ν => O.cons e.1 (f e.2)]
  refine collectionSeq_hamtLazySeq fun x hx => ?_
  obtain ⟨e, -, rfl⟩ := List.mem_map.mp hx
  exact O.cons_ne_eof _ _

theorem collectionSeq_dict {h : Hamt τ α α} (hv : h.Valid O.sxhash) :
    collectionSeq (hamtLazySeq O h.count ((hamtSeq h).map fun e => O.cons e.1 e.2)) =
      some ((rootEntries h.root).map fun e => O.cons e.1 e.2) :=
  collectionSeq_trie hv id

theorem hamtSeq_empty {ν : Type} :
    hamtSeq ({} : Hamt τ α ν) = [] := hamtSeq_eq (Hamt.Valid.empty fun _ => 0)

/-- A list of conses of the entries that has only keys of the entries is empty: a deepest key has a
cons. -/
theorem eq_nil_of_conses {ν : Type} (O : Objects α) (f : ν → α) {es : List (α × ν)}
    (h : ∀ x ∈ es.map (fun e => O.cons e.1 (f e.2)), x ∈ es.map Prod.fst) : es = [] := by
  by_contra hne
  have hsome : (es.map Prod.fst).toFinset.Nonempty := by
    simpa [List.toFinset_nonempty_iff] using hne
  obtain ⟨k, hk, hmax⟩ := Finset.exists_max_image _ O.depth hsome
  obtain ⟨e, he, rfl⟩ := List.mem_map.mp (List.mem_toFinset.mp hk)
  have hcons := h _ (List.mem_map_of_mem he)
  exact absurd (hmax _ (List.mem_toFinset.mpr hcons)) (Nat.not_le.mpr (O.depth_car e.1 (f e.2)))

theorem trie_eq_nil_iff {ν : Type} {h : Hamt τ α ν} (hv : h.Valid O.sxhash) :
    rootEntries h.root = [] ↔ h.count = 0 := by
  rw [hv.count, List.length_eq_zero_iff]

/-! ## §5 Result -/

theorem valid_of_run {ν : Type} {ops : List (HashTrie.Op α ν)} {h : Hamt τ α ν}
    (hrun : HashTrie.run O.sxhash {} ops = some h) : h.Valid O.sxhash := by
  obtain ⟨h', hrun', hvalid, -⟩ := HashTrie.run_spec (sxhash_congr O.sxhash)
    (Hamt.Valid.empty O.sxhash) Enumerates.nil ops
  obtain rfl : h = h' := Option.some.inj (hrun.symm.trans hrun')
  exact hvalid

/-- Only what is in the trie is bound. -/
theorem mem_entries_iff {h : Hamt τ α α} (hv : h.Valid O.sxhash) {e : α × α} :
    e ∈ rootEntries h.root ↔ hamtGet O.sxhash h e.1 = some e.2 := by
  rw [hamtGet_eq_lookup (sxhash_congr O.sxhash) hv,
    lookup_eq_some_iff (hv.distinct (sxhash_congr O.sxhash))]
  constructor
  · exact fun he => ⟨e, he, BEq.rfl, rfl⟩
  · rintro ⟨f, hf, hkey, hval⟩
    exact (Prod.ext (eq_of_beq hkey) hval : f = e) ▸ hf

theorem mem_keys_of_bound {k : α} {es : List (α × α)} (h : bound k es = true) :
    k ∈ es.map Prod.fst := by
  obtain ⟨e, he, hk⟩ := List.any_eq_true.mp h
  exact List.mem_map.mpr ⟨e, he, beq_iff_eq.mp hk⟩

theorem Tracked.orderedDict_iff {d : OrderedDict τ α α} (hd : Tracked O d) :
    LazyAgrees O (.orderedDict d) ↔ Agreeing O (.orderedDict d) := by
  have hbound : ∀ k, k ∈ d.dictStorage.keys ↔ ∃ v, hamtGet O.sxhash d.dictStorage k = some v :=
    fun k => by
    simp [Hamt.keys, mem_entries_iff hd.valid]
  have hfound : ∀ k ∈ d.iteratedKeys O.eof, ∃ v, hamtGet O.sxhash d.dictStorage k = some v :=
    fun k hk => (hbound k).mp (mem_keys_of_bound (hd.iteratedKeys hk))
  have hagree : Agreeing O (.orderedDict d) ↔ d.iteratedKeys O.eof = d.dictStorage.keys := by
    rw [hd.valid.keys_eq_iff, Agreeing]
    refine and_congr_left fun _ => forall_congr' fun k => ?_
    rw [hbound, Option.isSome_iff_exists]
    exact ⟨fun h => ⟨hfound k, h⟩, Iff.mpr⟩
  rw [LazyAgrees, lazySeq, collectionSeq_dict hd.valid, seq, Option.some.injEq, hagree, Hamt.keys]
  have hinj : Function.Injective fun e : α × α => O.cons e.1 e.2 := fun e e' h =>
    Prod.ext (O.cons_inj h).1 (O.cons_inj h).2
  have hkeys : (d.collectionSeq O.sxhash O.eof).map Prod.fst = d.iteratedKeys O.eof := by
    rw [OrderedDict.collectionSeq]
    generalize d.iteratedKeys O.eof = ks at hfound
    induction ks with
    | nil => rfl
    | cons k ks ih =>
      obtain ⟨v, hv⟩ := hfound k List.mem_cons_self
      simp [hv, ih fun k hk => hfound k (List.mem_cons_of_mem _ hk)]
  constructor
  · intro h
    rw [← hkeys, ← hinj.list_map h]
  · intro h
    congr 1
    rw [OrderedDict.collectionSeq, h, List.filterMap_map]
    have hself : (rootEntries d.dictStorage.root).filterMap (fun e =>
      (hamtGet O.sxhash d.dictStorage e.1).map (e.1, ·)) =
        (rootEntries d.dictStorage.root).filterMap some :=
      List.filterMap_congr fun e he => by rw [(mem_entries_iff hd.valid).mp he]; rfl
    exact (hself.trans List.filterMap_some).symm

theorem Tracked.orderedSet_iff {d : OrderedDict τ α α} (hd : Tracked O d) :
    LazyAgrees O (.orderedSet d) ↔ Agreeing O (.orderedSet d) := by
  rw [LazyAgrees, lazySeq, collectionSeq_dict hd.valid, seq, Option.some.injEq,
    Agreeing, ← trie_eq_nil_iff hd.valid]
  constructor
  · intro h
    refine eq_nil_of_conses O id fun x hx => ?_
    have hkey : x ∈ d.iteratedKeys O.eof := by
      rw [← h]
      exact hx
    exact mem_keys_of_bound (hd.iteratedKeys hkey)
  · intro h
    have hnone : d.iteratedKeys O.eof = [] := List.eq_nil_iff_forall_not_mem.mpr fun k hk => by
      have hbound := hd.iteratedKeys hk
      rw [h] at hbound
      cases hbound
    rw [h, hnone]
    rfl

theorem bag_iff {h : Hamt τ α Nat} (hv : h.Valid O.sxhash) :
    LazyAgrees O (.bag h) ↔ Agreeing O (.bag h) := by
  rw [LazyAgrees, lazySeq, collectionSeq_trie hv O.int, seq, hamtSeq_eq hv, Option.some.injEq,
    Agreeing, ← trie_eq_nil_iff hv]
  constructor
  · intro heq
    refine eq_nil_of_conses O O.int fun x hx => ?_
    rw [heq] at hx
    obtain ⟨e, he, hx⟩ := List.mem_flatMap.mp hx
    rw [List.eq_of_mem_replicate hx]
    exact List.mem_map_of_mem he
  · intro h
    rw [h]
    rfl

theorem sorted_iff {cls : SortedClass} {tree : BTreeDict α α} :
    LazyAgrees O (makeSorted cls tree : Value τ α) ↔ Agreeing O
    (makeSorted cls tree : Value τ α) := by
  have hlazy : collectionSeq (lazySeq O (makeSorted cls tree : Value τ α)) = some [] := by
    cases cls <;> simp [makeSorted, lazySeq, setLazySeq, hamtLazySeq, hamtSeq_empty, buildLazyChain,
      collectionSeq]
  have hseq : seq O (makeSorted cls tree : Value τ α) = [] ↔ treeEntries O tree = [] := by
    cases cls <;> simp [makeSorted, seq]
  rw [LazyAgrees, hlazy, Option.some.injEq, eq_comm, hseq, makeSorted, Agreeing, treeEntries]
  cases iteratorItems (iteratorStart tree.root) with
  | nil => simp
  | cons e es => simp [List.takeWhile_cons]

theorem priorityDict_iff {h : Hamt τ α α} (hv : h.Valid O.sxhash) {tree : BTreeDict (α × α) Unit} :
    LazyAgrees O (.priorityDict h tree) ↔ Agreeing O (.priorityDict h tree) := by
  have hinj : Function.Injective fun e : α × α => O.cons e.1 e.2 := fun e e' h =>
    Prod.ext (O.cons_inj h).1 (O.cons_inj h).2
  have hseq : seq O (.priorityDict h tree) =
      ((iteratorItems (iteratorStart tree.root)).map fun item => item.1.swap).map fun e =>
      O.cons e.1 e.2 := by
    rw [seq, List.map_map]
    rfl
  have hagree : Agreeing O (.priorityDict h tree) ↔
      ((iteratorItems (iteratorStart tree.root)).map fun item => item.1.swap) =
      rootEntries h.root := by
    simp only [Agreeing, hv.entries_eq_iff, mem_entries_iff hv]
  rw [LazyAgrees, lazySeq, collectionSeq_dict hv, hseq, Option.some.injEq, hagree]
  constructor
  · exact fun h => (hinj.list_map h).symm
  · exact fun h => congrArg _ h.symm

theorem denseIntSet_iff {bits : Nat} :
    LazyAgrees O (.denseIntSet {} bits : Value τ α) ↔
    Agreeing O (.denseIntSet {} bits : Value τ α) := by
  have hlazy : collectionSeq (lazySeq O (.denseIntSet {} bits : Value τ α)) = some [] := by
    simp [lazySeq, setLazySeq, hamtSeq_empty, collectionSeq]
  rw [LazyAgrees, hlazy, Option.some.injEq, seq, Agreeing]
  cases bits with
  | zero => simp [bitsLoop]
  | succ n => simp [bitsLoop]

/-- The two ways of iterating agree on the ordered dicts whose keys are in the order of the trie, on
the priority dicts whose items are, and on what has nothing to list, and on no other value. -/
theorem lazySeq_agrees_iff [DecidableEq τ] (O : Objects α) {c : Value τ α} (h : Reachable O c) :
    LazyAgrees O c ↔ Agreeing O c := by
  cases h with
  | orderedDict hmake hrun => exact (tracked_run (tracked_make hmake) hrun).orderedDict_iff
  | orderedSet hmake hrun =>
    refine Tracked.orderedSet_iff ?_
    induction hrun with
    | refl => exact tracked_make hmake
    | tail _ hstep ih => exact ih.setStep hstep
  | sorted _ => exact sorted_iff
  | denseIntSet _ => exact denseIntSet_iff
  | priorityDict hrun _ => exact priorityDict_iff (valid_of_run hrun)
  | bag hrun => exact bag_iff (valid_of_run hrun)

end

/-- Atoms and conses. -/
inductive Sample where
  | atom (n : Nat)
  | cons (car cdr : Sample)
deriving DecidableEq

def Sample.depth : Sample → Nat
  | .atom _ => 0
  | .cons car cdr => car.depth + cdr.depth + 1

def Sample.hash : Sample → Nat
  | .atom n => n
  | .cons _ _ => 0

/-- `:eof` and T are the atoms 0 and 1; the numbers follow. -/
def sample : Objects Sample where
  sxhash := Sample.hash
  eof := .atom 0
  t := .atom 1
  int n := .atom (n + 2)
  cons := .cons
  cons_ne_eof _ _ h := by cases h
  cons_inj h := by simpa using h
  depth := Sample.depth
  depth_car k v := by simp only [Sample.depth]; omega

def sampleTree : BTreeDict Sample Sample := { count := 1, root := some (.leaf [.atom 5] [.atom 5]) }

theorem sampleTree_run : SortedDict.run (fun _ _ => .eq) (fun _ => false) {}
    [.assoc (.atom 5) (.atom 5)] = some sampleTree := rfl

/-- `(ordered-dict 5 7 6 8)`: 5 stands before 6 in the trie. -/
def samplePair : OrderedDict Unit Sample Sample where
  dictStorage :=
    { count := 2,
      root := some (.node 96 [.leaf ⟨5, .atom 5, .atom 7⟩, .leaf ⟨6, .atom 6, .atom 8⟩]) }
  storage := buildVecTFromList [.atom 5, .atom 6]

theorem samplePair_make :
    OrderedDict.make sample.sxhash () [(.atom 5, .atom 7), (.atom 6, .atom 8)] = .ok samplePair :=
    rfl

theorem lazySeq_agrees_pair : LazyAgrees sample (.orderedDict samplePair) := by
  have hrun : OrderedDict.run sample.sxhash sample.eof samplePair [] = some samplePair := rfl
  refine (lazySeq_agrees_iff sample (.orderedDict samplePair_make hrun)).mpr ?_
  have hkeys : samplePair.iteratedKeys sample.eof = [.atom 5, .atom 6] := rfl
  have hv : samplePair.dictStorage.Valid sample.sxhash := (tracked_make samplePair_make).valid
  rw [Agreeing, hkeys]
  have hbefore : before 0 (sample.sxhash (.atom 5)) (sample.sxhash (.atom 6)) :=
    ⟨0, agree_zero _ _ _, by decide⟩
  have hfirst : Precedes sample.sxhash samplePair.dictStorage (.atom 5) (.atom 6) :=
    .inr ⟨fun ks hks => absurd hks List.not_mem_nil, hbefore⟩
  refine ⟨fun k hk => ?_, List.pairwise_pair.mpr hfirst⟩
  obtain ⟨v, hk⟩ := Option.isSome_iff_exists.mp hk
  have hmem : (k, v) ∈ [(Sample.atom 5, Sample.atom 7), (.atom 6, .atom 8)] :=
    (mem_entries_iff hv (e := (k, v))).mpr hk
  exact List.mem_map_of_mem (f := Prod.fst) hmem

/-- The lazy sequence of the sorted set of one number is empty. -/
theorem lazySeq_loses_number :
    Reachable sample (makeSorted .sortedSet sampleTree : Value Unit Sample) ∧
    ¬ LazyAgrees sample (makeSorted .sortedSet sampleTree : Value Unit Sample) := by
  refine ⟨.sorted sampleTree_run, fun h => ?_⟩
  have hitems : iteratorItems (iteratorStart sampleTree.root) = [(.atom 5, .atom 5)] := by
    rw [iteratorItems_eq_entries]
    rfl
  have hall : ∀ e ∈ (iteratorItems (iteratorStart sampleTree.root)).head?, e.1 = sample.eof :=
    sorted_iff.mp h
  rw [hitems] at hall
  exact absurd (hall _ rfl) (by simp [sample])

end Fol.Collections.LazyWalks
