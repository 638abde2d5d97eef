/-
Fol.Collections.PriorityDict — `<priority-dict>` of `collections.lisp`: a HAMT from keys to
priorities, and a B+-tree of the conses `(priority . key)`.

Every update removes the old item from the tree and inserts the new one, and counts both
without asking the tree whether it did so. The HAMT compares keys by EQUAL; the tree
compares priorities by `cmp-fn` and, among equal ones, keys by `%universal-comparator`,
which also takes objects for equal that are not EQUAL.

  §1 Operations  — `make`, `collectionAssoc`, `collectionDissoc`, `popMin`, …
  §2 Consistency — what the two structures have to agree on.
  §3 Items       — removing and inserting one item of the tree.
  §4 Steps       — each operation on both structures.
  §5 Runs        — `priority_dict_consistent`.
-/
import Fol.Compareops
import Fol.HashTrie.Session
import Fol.Lib.OrderedBindings
import Fol.SortedDict.Iterator
import Fol.SortedDict.Runs

namespace Fol.Collections

open Compareops HashTrie Lib SortedDict
open Std (TransCmp OrientedCmp)

/-! ## §1 Operations -/

/-- The cons `(priority . key)`. -/
abbrev Item := LispObject × LispObject

/-- `sorted-dict-storage`: a `btree-dict` of items, each with the value T. -/
structure Queue where
  count : Int := 0
  root : Option (BTree Item Unit) := none

/-- A `<priority-dict>`. -/
structure PriorityDict (τ : Type) where
  dictStorage : Hamt τ LispObject LispObject
  sortedDictStorage : Queue := {}

/-- An element to conjoin: a cons, or a collection `collection-ref` reads. -/
inductive Element where
  | cons (car cdr : LispObject)
  | collection (collectionRef : Nat → LispObject)

namespace PriorityDict

section Operations

variable {τ : Type} (sxhash : LispObject → Nat) (abs : LispReal → LispReal → Rat)
  (cmp : LispObject → LispObject → Ordering)

/-- `%priority-node-compare`. -/
def priorityNodeCompare (a b : Item) : Ordering :=
  let c := cmp a.1 b.1
  if c.isEq then universalComparator abs a.2 b.2 else c

/-- The loop of `make` over the reversed arguments: the last pair of every key. -/
def lastPairs (seen : List LispObject) (btreeArgs : List (Item × Unit)) :
    List (LispObject × LispObject) → List (Item × Unit)
  | [] => btreeArgs
  | (key, priority) :: rest =>
    if key ∈ seen then lastPairs seen btreeArgs rest
    else lastPairs (key :: seen) (((priority, key), ()) :: btreeArgs) rest

/-- `make` on `<priority-dict>`, from the pairs of its arguments; `cmp` is the leading
function, or `%universal-comparator`. -/
def make [DecidableEq τ] (token : τ) (args : List (LispObject × LispObject)) :
    Except Error (PriorityDict τ) := do
  let h ← hamtBulkLoad sxhash token args
  let btree := btreeBulkLoad (priorityNodeCompare abs cmp) (lastPairs [] [] args.reverse)
  return { dictStorage := h, sortedDictStorage := { count := btree.count, root := btree.root } }

/-- `btree-dissoc-node` on the root, and the count one less. -/
def removeItem (btree : Queue) (item : Item) : Option Queue :=
  match btree.root with
  | none => some { count := btree.count - 1, root := none }
  | some root =>
    (btreeDissocNode (priorityNodeCompare abs cmp) item root).map fun r =>
      { count := btree.count - 1, root := r.1 }

/-- `btree-assoc-node` on the root, and the count one more. A split key is a cons, so
never NIL. -/
def insertItem (btree : Queue) (item : Item) : Queue :=
  match btree.root with
  | none => { count := btree.count + 1, root := some (.leaf [item] [()]) }
  | some root =>
    let r := btreeAssocNode (priorityNodeCompare abs cmp) (fun _ => false) item () root
    let finalRoot :=
      match r.split with
      | none => r.node
      | some (splitKey, splitRight) => .node [splitKey] [r.node, splitRight]
    { count := btree.count + 1, root := some finalRoot }

/-- The tree without the item of the key, if the key is bound. -/
def cleaned (d : PriorityDict τ) (key : LispObject) : Option Queue :=
  match hamtGet sxhash d.dictStorage key with
  | some oldPriority => removeItem abs cmp d.sortedDictStorage (oldPriority, key)
  | none => some d.sortedDictStorage

/-- `collection-assoc`; `none` is an error. -/
def collectionAssoc (d : PriorityDict τ) (key priority : LispObject) : Option (PriorityDict τ) := do
  let newBtree ← d.cleaned sxhash abs cmp key
  let h ← hamtAssoc sxhash d.dictStorage key priority
  return { dictStorage := h, sortedDictStorage := insertItem abs cmp newBtree (priority, key) }

/-- `collection-dissoc`. -/
def collectionDissoc (d : PriorityDict τ) (key : LispObject) : Option (PriorityDict τ) :=
  match hamtGet sxhash d.dictStorage key with
  | none => some d
  | some oldPriority =>
    (removeItem abs cmp d.sortedDictStorage (oldPriority, key)).map fun newBtree =>
      { dictStorage := hamtDissoc sxhash d.dictStorage key, sortedDictStorage := newBtree }

/-- `collection-conj`. -/
def collectionConj (d : PriorityDict τ) (element : Element) : Option (PriorityDict τ) :=
  match element with
  | .cons car cdr => d.collectionAssoc sxhash abs cmp car cdr
  | .collection collectionRef =>
    d.collectionAssoc sxhash abs cmp (collectionRef 0) (collectionRef 1)

/-- `priority-dict-peek-min`: the cons `(key . priority)`. -/
def peekMin (d : PriorityDict τ) : Option (LispObject × LispObject) :=
  if d.sortedDictStorage.count > 0 then
    (iteratorNext (iteratorStart d.sortedDictStorage.root)).map fun r => r.1.1.swap
  else none

/-- `priority-dict-pop-min`. -/
def popMin (d : PriorityDict τ) : Option (PriorityDict τ) :=
  match d.peekMin with
  | some minEntry => d.collectionDissoc sxhash abs cmp minEntry.1
  | none => some d

/-- `collection-size`. -/
def collectionSize (d : PriorityDict τ) : Nat := d.dictStorage.count

/-- `collection-seq`: the entries `(key . priority)` in the order of the tree. -/
def collectionSeq (d : PriorityDict τ) : List (LispObject × LispObject) :=
  (iteratorItems (iteratorStart d.sortedDictStorage.root)).map fun e => e.1.swap

end Operations

/-- One update of a priority dict. -/
inductive Op where
  | assoc (key priority : LispObject)
  | conj (element : Element)
  | dissoc (key : LispObject)
  | popMin

section Runs

variable {τ : Type} (sxhash : LispObject → Nat) (abs : LispReal → LispReal → Rat)
  (cmp : LispObject → LispObject → Ordering)

def step (d : PriorityDict τ) : Op → Option (PriorityDict τ)
  | .assoc key priority => d.collectionAssoc sxhash abs cmp key priority
  | .conj element => d.collectionConj sxhash abs cmp element
  | .dissoc key => d.collectionDissoc sxhash abs cmp key
  | .popMin => d.popMin sxhash abs cmp

def run (d : PriorityDict τ) (ops : List Op) : Option (PriorityDict τ) :=
  ops.foldlM (step sxhash abs cmp) d

end Runs

/-! ## §2 Consistency -/

/-- The HAMT and the tree describe the same entries, and the first item of the tree has
the least priority. -/
structure Consistent {τ : Type} (sxhash : LispObject → Nat)
    (cmp : LispObject → LispObject → Ordering) (d : PriorityDict τ) : Prop where
  once : (d.collectionSeq.map Prod.fst).Nodup
  same : ∀ key priority, (key, priority) ∈ d.collectionSeq ↔
    hamtGet sxhash d.dictStorage key = some priority
  ordered : d.collectionSeq.Pairwise fun a b => (cmp a.2 b.2).isLE
  size : d.collectionSize = d.collectionSeq.length
  count : d.sortedDictStorage.count = d.collectionSeq.length
  peekMin_none : d.peekMin = none ↔ ∀ key, hamtGet sxhash d.dictStorage key = none
  peekMin_some : ∀ key priority, d.peekMin = some (key, priority) →
    hamtGet sxhash d.dictStorage key = some priority ∧
      ∀ key' priority', hamtGet sxhash d.dictStorage key' = some priority' →
        (cmp priority priority').isLE

section Conditions

variable {τ : Type} (sxhash : LispObject → Nat) (abs : LispReal → LispReal → Rat)
  (cmp : LispObject → LispObject → Ordering)

/-- The search for the item meets no routing key equal to it, and removing it takes no
node's only child. -/
def removable (btree : Queue) (item : Item) : Bool :=
  btree.root.all fun t =>
    !routing (priorityNodeCompare abs cmp) item t &&
      !emptiesLoneChild (priorityNodeCompare abs cmp) item t

/-- The item of `key`, if the dict binds the key, is removable. -/
def removableKey (d : PriorityDict τ) (key : LispObject) : Bool :=
  (hamtGet sxhash d.dictStorage key).all fun oldPriority =>
    removable abs cmp d.sortedDictStorage (oldPriority, key)

/-- Another key is bound to a priority that makes its item equal to the new one. -/
def clashes (d : PriorityDict τ) (key priority : LispObject) : Bool :=
  (rootEntries d.dictStorage.root).any fun e =>
    e.1 != key && (priorityNodeCompare abs cmp (priority, key) e.swap).isEq

def meetsAssoc (d : PriorityDict τ) (key priority : LispObject) : Bool :=
  d.removableKey sxhash abs cmp key && !d.clashes abs cmp key priority

/-- The item an operation removes is removable, the one it inserts clashes with none. -/
def meets (d : PriorityDict τ) : Op → Bool
  | .assoc key priority => d.meetsAssoc sxhash abs cmp key priority
  | .conj (.cons car cdr) => d.meetsAssoc sxhash abs cmp car cdr
  | .conj (.collection collectionRef) =>
    d.meetsAssoc sxhash abs cmp (collectionRef 0) (collectionRef 1)
  | .dissoc key => d.removableKey sxhash abs cmp key
  | .popMin => d.peekMin.all fun minEntry => d.removableKey sxhash abs cmp minEntry.1

/-- Every operation is made in a state that meets its condition. -/
def runMeets (d : PriorityDict τ) : List Op → Bool
  | [] => true
  | op :: ops =>
    d.meets sxhash abs cmp op && (d.step sxhash abs cmp op).all fun d' => runMeets d' ops

/-- No two of the bindings `make` is given have equal items. -/
def NoTies (args : List (LispObject × LispObject)) : Prop :=
  (upsertAll [] args).Pairwise fun a b => priorityNodeCompare abs cmp a.swap b.swap ≠ .eq

end Conditions

/-! ## §3 Items -/

section Items

variable {abs : LispReal → LispReal → Rat} {cmp : LispObject → LispObject → Ordering}

theorem priorityNodeCompare_eq (a b : Item) :
    priorityNodeCompare abs cmp a b =
      compareLex (fun x y : Item => cmp x.1 y.1)
        (fun x y => universalComparator abs x.2 y.2) a b := by
  rw [priorityNodeCompare, compareLex]
  cases cmp a.1 b.1 <;> rfl

variable [TransCmp cmp]

instance : TransCmp fun x y : Item => cmp x.1 y.1 where
  eq_swap := OrientedCmp.eq_swap
  isLE_trans := TransCmp.isLE_trans

instance : TransCmp fun x y : Item => universalComparator abs x.2 y.2 where
  eq_swap := OrientedCmp.eq_swap
  isLE_trans := TransCmp.isLE_trans

instance : TransCmp (priorityNodeCompare abs cmp) where
  eq_swap {a b} := by
    rw [priorityNodeCompare_eq, priorityNodeCompare_eq]
    exact OrientedCmp.eq_swap
  isLE_trans {a b c} hab hbc := by
    rw [priorityNodeCompare_eq] at *
    exact TransCmp.isLE_trans hab hbc

omit [TransCmp cmp] in
/-- The order of the items is an order of their priorities. -/
theorem cmp_isLE_of_lt {a b : Item} (h : priorityNodeCompare abs cmp a b = .lt) :
    (cmp a.1 b.1).isLE := by
  rw [priorityNodeCompare_eq, compareLex] at h
  cases hc : cmp a.1 b.1 with
  | lt => rfl
  | eq => rfl
  | gt => rw [hc] at h; cases h

/-- The queue stores exactly these items. -/
structure Holds (abs : LispReal → LispReal → Rat) (cmp : LispObject → LispObject → Ordering)
    (btree : Queue) (items : List (Item × Unit)) : Prop where
  wf : ∀ t, btree.root = some t → t.Wf (priorityNodeCompare abs cmp)
  entries : (SortedDict.rootEntries btree.root).Perm items
  count : btree.count = items.length

omit [TransCmp cmp] in
theorem Holds.sorted {btree : Queue} {items : List (Item × Unit)} (h : Holds abs cmp btree items) :
    Sorted (priorityNodeCompare abs cmp) (SortedDict.rootEntries btree.root) := by
  cases hroot : btree.root with
  | none => exact List.Pairwise.nil
  | some t => exact (h.wf t hroot).sorted

/-- A removable item goes, and no other. -/
theorem Holds.removeItem {btree : Queue} {item : Item} {items : List (Item × Unit)}
    (h : Holds abs cmp btree ((item, ()) :: items)) (hr : removable abs cmp btree item = true) :
    ∃ btree', PriorityDict.removeItem abs cmp btree item = some btree' ∧
      Holds abs cmp btree' items := by
  have hmem : (item, ()) ∈ SortedDict.rootEntries btree.root :=
    h.entries.mem_iff.mpr List.mem_cons_self
  have hperm := h.entries
  cases hroot : btree.root with
  | none => rw [hroot] at hmem; cases hmem
  | some t =>
    rw [hroot] at hmem hperm
    rw [removable, hroot, Option.all_some, Bool.and_eq_true, Bool.not_eq_true',
      Bool.not_eq_true'] at hr
    obtain ⟨⟨n, old⟩, hres, hspec⟩ := btreeDissocNode_spec (h.wf t hroot) hr.1 hr.2
    refine ⟨{ count := btree.count - 1, root := n }, ?_, hspec.wf, ?_, ?_⟩
    · simp [PriorityDict.removeItem, hroot, hres]
    · exact ((hspec.removes.perm_of_mem hmem).symm.trans hperm).cons_inv
    · simp [h.count]

/-- An item equal to none of the queue comes in addition. -/
theorem Holds.insertItem {btree : Queue} {item : Item} {items : List (Item × Unit)}
    (h : Holds abs cmp btree items)
    (hne : ∀ e ∈ items, priorityNodeCompare abs cmp item e.1 ≠ .eq) :
    Holds abs cmp (PriorityDict.insertItem abs cmp btree item) ((item, ()) :: items) := by
  have hcount : btree.count + 1 = (((item, ()) :: items).length : Int) := by simp [h.count]
  have hperm := h.entries
  cases hroot : btree.root with
  | none =>
    rw [hroot] at hperm
    rw [PriorityDict.insertItem, hroot]
    refine ⟨fun t ht => ?_, hperm.cons _, hcount⟩
    cases ht
    exact ⟨List.cons_ne_nil _ _, rfl, List.pairwise_singleton _ _⟩
  | some t =>
    rw [hroot] at hperm
    have habsent (e : Item × Unit) (he : e ∈ t.entries) :
        priorityNodeCompare abs cmp item e.1 ≠ .eq := hne e (hperm.mem_iff.mp he)
    have hspec :=
      btreeAssocNode_spec () (h.wf t hroot) (insertable_of_absent (h.wf t hroot) habsent)
    have hsorted := hspec.inserts.sorted (h.wf t hroot).sorted
    have hperm' := (hspec.inserts.perm_of_absent habsent).trans (hperm.cons _)
    rw [PriorityDict.insertItem, hroot]
    simp only
    generalize btreeAssocNode (priorityNodeCompare abs cmp) (fun _ => false) item () t = r at *
    obtain ⟨n, split, old⟩ := r
    cases split with
    | none =>
      rw [show entriesList (AssocResult.parts ⟨n, none, old⟩) = n.entries from
        List.append_nil _] at hperm'
      refine ⟨fun u hu => ?_, hperm', hcount⟩
      cases hu
      exact hspec.wf n List.mem_cons_self
    | some s =>
      refine ⟨fun u hu => ?_, hperm', hcount⟩
      cases hu
      exact (wf_node_iff _).mpr ⟨hspec.wf, hspec.routed, hsorted⟩

end Items

/-! ## §4 Steps -/

section Steps

variable {τ : Type} {sxhash : LispObject → Nat} {abs : LispReal → LispReal → Rat}
  {cmp : LispObject → LispObject → Ordering}

/-- The item of an entry, as the tree stores it. -/
def itemOf (e : LispObject × LispObject) : Item × Unit := (e.swap, ())

/-- The HAMT is valid, and the queue stores the items of its entries. -/
structure Inv (sxhash : LispObject → Nat) (abs : LispReal → LispReal → Rat)
    (cmp : LispObject → LispObject → Ordering) (d : PriorityDict τ) : Prop where
  valid : d.dictStorage.Valid sxhash
  holds : Holds abs cmp d.sortedDictStorage ((HashTrie.rootEntries d.dictStorage.root).map itemOf)

theorem sxhash_congr (a b : LispObject) (h : (a == b) = true) : sxhash a = sxhash b := by
  rw [eq_of_beq h]

theorem Inv.get {d : PriorityDict τ} (h : Inv sxhash abs cmp d) (key : LispObject) :
    hamtGet sxhash d.dictStorage key = lookup key (HashTrie.rootEntries d.dictStorage.root) :=
  hamtGet_eq_lookup sxhash_congr h.valid key

theorem Inv.distinct {d : PriorityDict τ} (h : Inv sxhash abs cmp d) :
    Distinct (HashTrie.rootEntries d.dictStorage.root) := h.valid.distinct sxhash_congr

theorem Inv.mem_iff {d : PriorityDict τ} (h : Inv sxhash abs cmp d) {key priority : LispObject} :
    (key, priority) ∈ HashTrie.rootEntries d.dictStorage.root ↔
      hamtGet sxhash d.dictStorage key = some priority :=
  Enumerates.mem_pair_iff ⟨h.distinct, h.get⟩

/-- The entries with the one of a bound key in front. -/
theorem perm_cons_without {es : List (LispObject × LispObject)} (hd : Distinct es)
    {key priority : LispObject} (hmem : (key, priority) ∈ es) :
    es.Perm ((key, priority) :: without key es) := by
  obtain ⟨l, r, rfl⟩ := List.append_of_mem hmem
  obtain ⟨-, hr, hlr⟩ := List.pairwise_append.mp hd
  have hl : bound key l = false := bound_eq_false_iff.mpr fun e he => hlr e he _ List.mem_cons_self
  have hr : bound key r = false :=
    bound_eq_false_iff.mpr fun e he => beq_false_symm ((List.pairwise_cons.mp hr).1 e he)
  have hwithout : without key (l ++ (key, priority) :: r) = l ++ r := by
    have hcons : without key ((key, priority) :: r) = without key r := by simp [without]
    rw [without_append, hcons, without_eq_self hl, without_eq_self hr]
  rw [hwithout]
  exact List.perm_middle

variable [TransCmp cmp]

/-- The queue once the item of the key is gone. -/
theorem Inv.cleaned {d : PriorityDict τ} (h : Inv sxhash abs cmp d) {key : LispObject}
    (hr : d.removableKey sxhash abs cmp key = true) :
    ∃ btree, d.cleaned sxhash abs cmp key = some btree ∧
      Holds abs cmp btree ((without key (HashTrie.rootEntries d.dictStorage.root)).map itemOf) := by
  rw [removableKey] at hr
  rw [PriorityDict.cleaned]
  cases hget : hamtGet sxhash d.dictStorage key with
  | none =>
    rw [h.get, lookup_eq_none_iff] at hget
    rw [without_eq_self hget]
    exact ⟨_, rfl, h.holds⟩
  | some oldPriority =>
    rw [hget, Option.all_some] at hr
    have hperm := (perm_cons_without h.distinct (h.mem_iff.mpr hget)).map itemOf
    exact Holds.removeItem
      ⟨h.holds.wf, h.holds.entries.trans hperm, by rw [h.holds.count, hperm.length_eq]; rfl⟩ hr

theorem Inv.collectionAssoc {d : PriorityDict τ} (h : Inv sxhash abs cmp d)
    {key priority : LispObject} (hm : d.meetsAssoc sxhash abs cmp key priority = true) :
    ∃ d', d.collectionAssoc sxhash abs cmp key priority = some d' ∧ Inv sxhash abs cmp d' := by
  rw [meetsAssoc, Bool.and_eq_true, Bool.not_eq_true', clashes, List.any_eq_false] at hm
  obtain ⟨btree, hclean, hholds⟩ := h.cleaned hm.1
  obtain ⟨hamt, hassoc, hvalid, hperm⟩ := hamtAssoc_spec sxhash_congr h.valid key priority
  refine ⟨_, by simp [PriorityDict.collectionAssoc, hclean, hassoc]; rfl, hvalid, ?_⟩
  have hne (i : Item × Unit)
      (hi : i ∈ (without key (HashTrie.rootEntries d.dictStorage.root)).map itemOf) :
      priorityNodeCompare abs cmp (priority, key) i.1 ≠ .eq := by
    obtain ⟨e, he, rfl⟩ := List.mem_map.mp hi
    obtain ⟨hmem, hk⟩ := List.mem_filter.mp he
    intro heq
    refine hm.2 e hmem ?_
    rw [Bool.and_eq_true]
    exact ⟨hk, Ordering.isEq_iff_eq_eq.mpr heq⟩
  have hins := hholds.insertItem hne
  have hmap := hperm.map itemOf
  exact ⟨hins.wf, hins.entries.trans hmap.symm, by rw [hins.count, hmap.length_eq]; rfl⟩

theorem Inv.collectionDissoc {d : PriorityDict τ} (h : Inv sxhash abs cmp d) {key : LispObject}
    (hr : d.removableKey sxhash abs cmp key = true) :
    ∃ d', d.collectionDissoc sxhash abs cmp key = some d' ∧ Inv sxhash abs cmp d' := by
  obtain ⟨btree, hclean, hholds⟩ := h.cleaned hr
  obtain ⟨hvalid, hperm⟩ := hamtDissoc_spec sxhash_congr h.valid key
  rw [PriorityDict.cleaned] at hclean
  rw [PriorityDict.collectionDissoc]
  cases hget : hamtGet sxhash d.dictStorage key with
  | none => exact ⟨d, rfl, h⟩
  | some oldPriority =>
    rw [hget] at hclean
    have hmap := hperm.map itemOf
    refine ⟨{ dictStorage := hamtDissoc sxhash d.dictStorage key, sortedDictStorage := btree },
      congrArg (Option.map _) hclean, hvalid, hholds.wf, hholds.entries.trans hmap.symm, ?_⟩
    rw [hholds.count, hmap.length_eq]

/-- The step lemma: an operation made under its condition returns, and keeps the invariant. -/
theorem Inv.step {d : PriorityDict τ} (h : Inv sxhash abs cmp d) {op : Op}
    (hm : d.meets sxhash abs cmp op = true) :
    ∃ d', d.step sxhash abs cmp op = some d' ∧ Inv sxhash abs cmp d' := by
  cases op with
  | assoc key priority => exact h.collectionAssoc hm
  | conj element =>
    cases element with
    | cons car cdr => exact h.collectionAssoc hm
    | collection collectionRef => exact h.collectionAssoc hm
  | dissoc key => exact h.collectionDissoc hm
  | popMin =>
    rw [meets] at hm
    rw [PriorityDict.step, PriorityDict.popMin]
    cases hmin : d.peekMin with
    | none => exact ⟨d, rfl, h⟩
    | some minEntry =>
      rw [hmin, Option.all_some] at hm
      exact h.collectionDissoc hm

end Steps

/-! ## §5 Runs -/

section Make

variable {τ : Type} {sxhash : LispObject → Nat} {abs : LispReal → LispReal → Rat}
  {cmp : LispObject → LispObject → Ordering}

/-- The entry of an item. -/
def entryOf (e : Item × Unit) : LispObject × LispObject := e.1.swap

/-- The loop of `make` keeps the first of the pairs it meets, that is, the last given. -/
theorem lastPairs_enumerates {seen : List LispObject} {btreeArgs : List (Item × Unit)}
    (hd : Distinct (btreeArgs.map entryOf))
    (hseen : ∀ key, bound key (btreeArgs.map entryOf) = decide (key ∈ seen))
    (rest : List (LispObject × LispObject)) :
    Enumerates ((lastPairs seen btreeArgs rest).map entryOf) fun key =>
      (lookup key (btreeArgs.map entryOf)).or (lookup key rest) := by
  induction rest generalizing seen btreeArgs with
  | nil => exact ⟨hd, fun key => by simp [lastPairs]⟩
  | cons p rest ih =>
    obtain ⟨key, priority⟩ := p
    rw [lastPairs]
    by_cases hmem : key ∈ seen
    · rw [if_pos hmem]
      obtain ⟨hd', hl'⟩ := ih hd hseen
      refine ⟨hd', fun k => ?_⟩
      rw [← hl']
      cases hk : key == k with
      | false => rw [lookup_cons_neg _ hk]
      | true =>
        rw [← eq_of_beq hk]
        have hbound := hseen key
        rw [decide_eq_true hmem, ← lookup_isSome, Option.isSome_iff_exists] at hbound
        obtain ⟨v, hv⟩ := hbound
        rw [hv]
        rfl
    · rw [if_neg hmem]
      have hfree := hseen key
      rw [decide_eq_false hmem] at hfree
      have hcons : (((priority, key), ()) :: btreeArgs).map entryOf =
          (key, priority) :: btreeArgs.map entryOf := rfl
      have hd' : Distinct ((((priority, key), ()) :: btreeArgs).map entryOf) :=
        List.pairwise_cons.mpr
          ⟨fun e he => beq_false_symm (bound_eq_false_iff.mp hfree e he), hd⟩
      have hseen' (k : LispObject) : bound k ((((priority, key), ()) :: btreeArgs).map entryOf) =
          decide (k ∈ key :: seen) := by
        rw [hcons, bound_cons, hseen]
        by_cases hk : k = key
        · simp [hk]
        · simp [hk, Ne.symm hk]
      have hnext := ih hd' hseen'
      refine ⟨hnext.distinct, fun k => ?_⟩
      rw [← hnext.agrees, hcons]
      cases hk : key == k with
      | false => rw [lookup_cons_neg _ hk, lookup_cons_neg _ hk]
      | true =>
        rw [lookup_cons_pos _ hk, lookup_cons_pos _ hk, ← eq_of_beq hk,
          lookup_eq_none_iff.mpr hfree]
        rfl

variable [TransCmp cmp]

theorem inv_make [DecidableEq τ] {token : τ} {args : List (LispObject × LispObject)}
    {d : PriorityDict τ} (hmake : make sxhash abs cmp token args = .ok d)
    (hties : NoTies abs cmp args) : Inv sxhash abs cmp d := by
  rw [make] at hmake
  obtain ⟨hamt, hl, rfl⟩ := bind_pure_eq_ok.mp hmake
  obtain ⟨hvalid, henum⟩ := hamtBulkLoad_spec sxhash_congr hl
  have hnil : Distinct (([] : List (Item × Unit)).map entryOf) := List.Pairwise.nil
  have hlast : Enumerates ((lastPairs [] [] args.reverse).map entryOf) fun key =>
      lookup key args.reverse := lastPairs_enumerates hnil (fun _ => rfl) args.reverse
  have hargs : Enumerates (upsertAll [] args) fun key => lookup key args.reverse :=
    ⟨Distinct.upsertAll distinct_nil args,
      fun key => by rw [lookup_upsertAll, lookup_nil, Option.or_none]⟩
  have hself : ((lastPairs [] [] args.reverse).map entryOf).map itemOf =
      lastPairs [] [] args.reverse := by
    rw [List.map_map]
    exact List.map_id _
  have hperm :
    (lastPairs [] [] args.reverse).Perm ((HashTrie.rootEntries hamt.root).map itemOf) := by
    rw [← hself]
    exact (hlast.perm_of henum).map itemOf
  have hdiffer : (lastPairs [] [] args.reverse).Pairwise
      fun a b => priorityNodeCompare abs cmp a.1 b.1 ≠ .eq := by
    have hmap : ((upsertAll [] args).map itemOf).Pairwise
        fun a b => priorityNodeCompare abs cmp a.1 b.1 ≠ .eq := List.pairwise_map.mpr hties
    refine hmap.perm (((hargs.perm_of henum).map itemOf).trans hperm.symm) ?_
    exact fun hab heq => hab (OrientedCmp.eq_symm heq)
  obtain ⟨hwf, hentries, hcount⟩ := btreeBulkLoad_of_no_ties hdiffer
  exact ⟨hvalid, hwf, hentries.trans hperm, by rw [← hperm.length_eq, ← hcount]⟩

end Make

section Consistency

variable {τ : Type} {sxhash : LispObject → Nat} {abs : LispReal → LispReal → Rat}
  {cmp : LispObject → LispObject → Ordering} [TransCmp cmp]

omit [TransCmp cmp] in
theorem collectionSeq_eq (d : PriorityDict τ) :
    d.collectionSeq = (SortedDict.rootEntries d.sortedDictStorage.root).map entryOf := by
  rw [collectionSeq, iteratorItems_eq_entries]
  rfl

omit [TransCmp cmp] in
/-- `collection-seq` returns the entries of the HAMT, in another order. -/
theorem Inv.seq_perm {d : PriorityDict τ} (h : Inv sxhash abs cmp d) :
    d.collectionSeq.Perm (HashTrie.rootEntries d.dictStorage.root) := by
  have hmap := h.holds.entries.map entryOf
  rw [List.map_map] at hmap
  rw [collectionSeq_eq]
  exact hmap.trans (.of_eq (List.map_id _))

omit [TransCmp cmp] in
theorem Inv.count_eq {d : PriorityDict τ} (h : Inv sxhash abs cmp d) :
    d.sortedDictStorage.count = d.collectionSeq.length := by
  rw [h.holds.count, List.length_map, h.seq_perm.length_eq]

omit [TransCmp cmp] in
/-- `priority-dict-peek-min` returns the first entry. -/
theorem Inv.peekMin_eq {d : PriorityDict τ} (h : Inv sxhash abs cmp d) :
    d.peekMin = d.collectionSeq.head? := by
  have hnext := iteratorNext_iteratorStart d.sortedDictStorage.root
  have hhead : (iteratorNext (iteratorStart d.sortedDictStorage.root)).map (fun r => r.1.1.swap) =
      d.collectionSeq.head? := by
    rw [collectionSeq_eq, List.head?_map, ← hnext, Option.map_map]
    rfl
  rw [peekMin, hhead, h.count_eq]
  cases d.collectionSeq with
  | nil => rfl
  | cons e es => rw [if_pos (by simp)]

omit [TransCmp cmp] in
theorem Inv.ordered {d : PriorityDict τ} (h : Inv sxhash abs cmp d) :
    d.collectionSeq.Pairwise fun a b => (cmp a.2 b.2).isLE := by
  rw [collectionSeq_eq, List.pairwise_map]
  exact h.holds.sorted.imp cmp_isLE_of_lt

theorem Inv.consistent {d : PriorityDict τ} (h : Inv sxhash abs cmp d) :
    Consistent sxhash cmp d := by
  have hsame (key priority : LispObject) : (key, priority) ∈ d.collectionSeq ↔
      hamtGet sxhash d.dictStorage key = some priority := by
    rw [h.seq_perm.mem_iff, h.mem_iff]
  refine ⟨?_, hsame, h.ordered, ?_, h.count_eq, ?_, ?_⟩
  · have hdistinct := h.distinct.perm h.seq_perm.symm
    exact List.pairwise_map.mpr (hdistinct.imp fun hab => ne_of_beq_false hab)
  · rw [collectionSize, h.valid.count, h.seq_perm.length_eq]
  · rw [h.peekMin_eq, List.head?_eq_none_iff, List.eq_nil_iff_forall_not_mem]
    constructor
    · intro hnone key
      cases hget : hamtGet sxhash d.dictStorage key with
      | none => rfl
      | some priority => exact absurd ((hsame key priority).mpr hget) (hnone _)
    · rintro hnone ⟨key, priority⟩ hmem
      rw [hsame, hnone] at hmem
      cases hmem
  · intro key priority hmin
    rw [h.peekMin_eq] at hmin
    have hordered := h.ordered
    cases hseq : d.collectionSeq with
    | nil => rw [hseq] at hmin; cases hmin
    | cons e es =>
      rw [hseq] at hmin hordered hsame
      cases hmin
      refine ⟨(hsame key priority).mp List.mem_cons_self, fun key' priority' hget => ?_⟩
      rcases List.mem_cons.mp ((hsame key' priority').mpr hget) with heq | hmem
      · cases heq
        have hrefl : cmp priority priority = .eq := Std.ReflCmp.compare_self
        rw [hrefl]
        rfl
      · exact (List.pairwise_cons.mp hordered).1 _ hmem

end Consistency

section Runs

variable {τ : Type} {sxhash : LispObject → Nat} {abs : LispReal → LispReal → Rat}
  {cmp : LispObject → LispObject → Ordering} [TransCmp cmp]

/-- The run lemma: every state of a run whose operations meet their conditions is reached,
and keeps the invariant. -/
theorem Inv.run {d : PriorityDict τ} (h : Inv sxhash abs cmp d) {ops : List Op}
    (hm : d.runMeets sxhash abs cmp ops = true) {done : List Op} (hdone : done <+: ops) :
    ∃ d', d.run sxhash abs cmp done = some d' ∧ Inv sxhash abs cmp d' := by
  induction ops generalizing d done with
  | nil =>
    rw [List.prefix_nil.mp hdone]
    exact ⟨d, rfl, h⟩
  | cons op ops ih =>
    rw [runMeets, Bool.and_eq_true] at hm
    obtain ⟨d₁, hstep, h₁⟩ := h.step hm.1
    have hrest := hm.2
    rw [hstep, Option.all_some] at hrest
    cases done with
    | nil => exact ⟨d, rfl, h⟩
    | cons op' done =>
      obtain ⟨rfl, hdone'⟩ := List.cons_prefix_cons.mp hdone
      obtain ⟨d', hrun, h'⟩ := ih h₁ hrest hdone'
      refine ⟨d', ?_, h'⟩
      rw [PriorityDict.run, List.foldlM_cons, hstep]
      exact hrun

/-- Where no two of the bindings given to `make` have equal items, and every operation
removes an item that is no routing key of its search path (and no node's only child) and
inserts one that is equal to no item of another key, the HAMT and the tree describe the
same entries in every state of the run. -/
theorem priority_dict_consistent [DecidableEq τ] (token : τ)
    {args : List (LispObject × LispObject)} {d : PriorityDict τ}
    (hmake : make sxhash abs cmp token args = .ok d) (hties : NoTies abs cmp args)
    {ops : List Op} (hops : d.runMeets sxhash abs cmp ops = true) :
    ∀ done, done <+: ops → ∃ d', d.run sxhash abs cmp done = some d' ∧
      Consistent sxhash cmp d' := by
  intro done hdone
  obtain ⟨d', hrun, h'⟩ := (inv_make hmake hties).run hops hdone
  exact ⟨d', hrun, h'.consistent⟩

end Runs

/-- What `make` returns for one pair. -/
def single (key priority : LispObject) : PriorityDict Unit :=
  { dictStorage := { count := 1, root := some (.leaf ⟨0, key, priority⟩) }
    sortedDictStorage := { count := 1, root := some (.leaf [(priority, key)] [()]) } }

theorem make_single (cmp : LispObject → LispObject → Ordering) (key priority : LispObject) :
    make (fun _ => 0) (fun _ _ => 0) cmp () [(key, priority)] = .ok (single key priority) := by
  have htree : btreeBulkLoad (priorityNodeCompare (fun _ _ => 0) cmp) [((priority, key), ())] =
      { count := 1, root := some (.leaf [(priority, key)] [()]) } := by
    simp [btreeBulkLoad, List.mergeSort_singleton, uniquePairs, buildBottomUp, chunks32,
      buildLevels]
  rw [make, show lastPairs [] [] [(key, priority)].reverse = [((priority, key), ())] from rfl,
    htree]
  rfl

/-- Two numbers that are not EQUAL at different priorities, the first one moved and the
other removed. -/
theorem priority_dict_consistent_numbers :
    ∃ d : PriorityDict Unit,
      make (fun _ => 0) (fun _ _ => 0) (universalComparator fun _ _ => 0) () [(.int 1, .int 5)] =
        .ok d ∧
      ∀ done, done <+: [.assoc (.double 1) (.int 3), .conj (.cons (.int 1) (.int 2)), .popMin,
          .dissoc (.double 1)] →
        ∃ d', d.run (fun _ => 0) (fun _ _ => 0) (universalComparator fun _ _ => 0) done = some d' ∧
          Consistent (fun _ => 0) (universalComparator fun _ _ => 0) d' :=
  ⟨_, make_single _ _ _, priority_dict_consistent () (make_single _ _ _)
    (List.pairwise_singleton _ _) (by decide +kernel)⟩

/-- Two keys that are not EQUAL, 1 and 1.0, at one priority: the second takes the place of
the first in the tree, and the dict of two bindings iterates over one. -/
theorem equal_items_merge :
    ∃ d d' : PriorityDict Unit,
      make (fun _ => 0) (fun _ _ => 0) (universalComparator fun _ _ => 0) () [(.int 1, .int 5)] =
        .ok d ∧
      d.run (fun _ => 0) (fun _ _ => 0) (universalComparator fun _ _ => 0)
        [.assoc (.double 1) (.int 5)] = some d' ∧
      d'.collectionSize = 2 ∧ d'.collectionSeq = [(.int 1, .int 5)] ∧
      ¬ Consistent (fun _ => 0) (universalComparator fun _ _ => 0) d' := by
  refine ⟨_, _, make_single _ _ _, rfl, rfl, by decide +kernel, fun h => ?_⟩
  exact absurd h.size (by decide +kernel)

end PriorityDict

end Fol.Collections
