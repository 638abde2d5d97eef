/-
Fol.Collections.OrderedDict — `<ordered-dict>` of `collections.lisp`: a HAMT and a vector
of its keys in insertion order.

`collection-conj` and `collection-dissoc` carry both slots. `collection-assoc` is the
method of `<dict-mixin>`, the first in the precedence list: its `make-instance` passes
`:dict-storage` only, so that the key vector is its initform, the empty vector. An
iterator ends at `:eof`, so a key that is `:eof` ends the loops over the keys early.
-/
import Fol.HashTrie.Session
import Fol.VecTrie.Refinement
import Fol.Lib.OrderedBindings
import Mathlib.Data.List.TakeWhile

namespace Fol.Collections

open Lib HashTrie VecTrie

variable {τ κ ν : Type}

/-! ## §1 Operations -/

/-- An `<ordered-dict>`: `dict-storage` of `<dict-mixin>`, `storage` of `<vec-t-storage-mixin>`. -/
structure OrderedDict (τ κ ν : Type) where
  dictStorage : Hamt τ κ ν
  storage : VecT κ := {}

namespace OrderedDict

section Operations

variable [BEq κ] (sxhash : κ → Nat) (eof : κ)

/-- `make` on `<ordered-dict>`, from the pairs of its arguments. -/
def make [DecidableEq τ] (token : τ) (args : List (κ × ν)) : Except Error (OrderedDict τ κ ν) := do
  let h ← hamtBulkLoad sxhash token args
  return { dictStorage := h, storage := buildVecTFromList (firsts [] (args.map Prod.fst)) }

/-- `collection-conj`. -/
def collectionConj (d : OrderedDict τ κ ν) (key : κ) (val : ν) : Option (OrderedDict τ κ ν) :=
  (assocRoot d.dictStorage.root (sxhash key) key val).map fun r =>
    { dictStorage :=
        { count := if r.2 then d.dictStorage.count + 1 else d.dictStorage.count, root := some r.1 }
      storage := if r.2 then vecTConj d.storage key else d.storage }

/-- `collection-assoc`: the `assoc` of `<dict-mixin>`, which makes the instance anew. -/
def collectionAssoc (d : OrderedDict τ κ ν) (key : κ) (val : ν) : Option (OrderedDict τ κ ν) :=
  (hamtAssoc sxhash d.dictStorage key val).map fun h => { dictStorage := h }

/-- `assoc` of `collection-functions.lisp`. -/
def assoc (d : OrderedDict τ κ ν) (key : κ) (val : ν) (kvs : List (κ × ν)) :
    Option (OrderedDict τ κ ν) :=
  ((key, val) :: kvs).foldlM (fun d p => collectionConj sxhash d p.1 p.2) d

/-- `merge`; a collection is the pairs its `collection-seq` returns. -/
def merge (d : OrderedDict τ κ ν) (colls : List (List (κ × ν))) : Option (OrderedDict τ κ ν) :=
  colls.flatten.foldlM (fun d p => collectionAssoc sxhash d p.1 p.2) d

/-- The elements of the key vector. -/
def keyOrder (d : OrderedDict τ κ ν) : List κ :=
  iteratorTake d.storage d.storage.count (vecTIterator d.storage)

/-- The keys a loop over the iterator sees: it stops at the first `:eof`. -/
def iteratedKeys (d : OrderedDict τ κ ν) : List κ := d.keyOrder.takeWhile fun k => !(k == eof)

/-- `collection-dissoc`. -/
def collectionDissoc (d : OrderedDict τ κ ν) (key : κ) : OrderedDict τ κ ν :=
  match hamtGet sxhash d.dictStorage key with
  | some _ =>
    { dictStorage := hamtDissoc sxhash d.dictStorage key
      storage := buildVecTFromList ((d.iteratedKeys eof).filter fun k => !(k == key)) }
  | none => d

/-- `collection-seq`. -/
def collectionSeq (d : OrderedDict τ κ ν) : List (κ × ν) :=
  (d.iteratedKeys eof).filterMap fun k => (hamtGet sxhash d.dictStorage k).map (k, ·)

/-- `collection-size`. -/
def collectionSize (d : OrderedDict τ κ ν) : Nat := d.dictStorage.count

end Operations

/-- One update of an ordered dict. -/
inductive Op (κ ν : Type) where
  | conj (key : κ) (val : ν)
  | collectionAssoc (key : κ) (val : ν)
  | assoc (key : κ) (val : ν) (kvs : List (κ × ν))
  | merge (colls : List (List (κ × ν)))
  | dissoc (key : κ)

section Runs

variable [BEq κ] (sxhash : κ → Nat) (eof : κ)

def step (d : OrderedDict τ κ ν) : Op κ ν → Option (OrderedDict τ κ ν)
  | .conj key val => d.collectionConj sxhash key val
  | .collectionAssoc key val => d.collectionAssoc sxhash key val
  | .assoc key val kvs => d.assoc sxhash key val kvs
  | .merge colls => d.merge sxhash colls
  | .dissoc key => some (d.collectionDissoc sxhash eof key)

def run (d : OrderedDict τ κ ν) (ops : List (Op κ ν)) : Option (OrderedDict τ κ ν) :=
  ops.foldlM (step sxhash eof) d

end Runs

/-! ## §2 In step -/

/-- What an operation means on the bindings in insertion order. -/
def absStep [BEq κ] (es : List (κ × ν)) : Op κ ν → List (κ × ν)
  | .conj key val => upsert key val es
  | .collectionAssoc key val => upsert key val es
  | .assoc key val kvs => upsertAll es ((key, val) :: kvs)
  | .merge colls => upsertAll es colls.flatten
  | .dissoc key => without key es

def absRun [BEq κ] (es : List (κ × ν)) (ops : List (Op κ ν)) : List (κ × ν) := ops.foldl absStep es

/-- The key vector lists the keys of the map, each once and in insertion order, and
`collection-seq` returns every binding. -/
structure InStep [BEq κ] (sxhash : κ → Nat) (eof : κ) (d : OrderedDict τ κ ν)
    (es : List (κ × ν)) : Prop where
  distinct : Distinct es
  order : d.keyOrder = es.map Prod.fst
  get : ∀ key, hamtGet sxhash d.dictStorage key = lookup key es
  size : d.collectionSize = es.length
  seq : d.collectionSeq sxhash eof = es

/-! ## §3 Steps -/

section Steps

variable [BEq κ] [EquivBEq κ] {sxhash : κ → Nat} {eof : κ}
  (hcongr : ∀ a b : κ, (a == b) = true → sxhash a = sxhash b)

/-- The invariant of the operations that carry both slots. -/
structure Inv (sxhash : κ → Nat) (d : OrderedDict τ κ ν) (es : List (κ × ν)) : Prop where
  valid : d.dictStorage.Valid sxhash
  enum : Enumerates (rootEntries d.dictStorage.root) fun k => lookup k es
  distinct : Distinct es
  keys : d.storage.Represents (es.map Prod.fst)

omit [BEq κ] [EquivBEq κ] in
theorem keyOrder_of_represents {d : OrderedDict τ κ ν} {ks : List κ} (h : d.storage.Represents ks) :
    d.keyOrder = ks := by
  have hcount : d.storage.count = ks.length := h.choose_spec.len
  rw [keyOrder, hcount, vecTIterator_take h (Nat.le_refl _), List.take_length]

omit [EquivBEq κ] in
theorem iteratedKeys_of_no_eof {d : OrderedDict τ κ ν} {es : List (κ × ν)}
    (h : d.keyOrder = es.map Prod.fst) (hno : bound eof es = false) :
    d.iteratedKeys eof = es.map Prod.fst := by
  rw [iteratedKeys, h, List.takeWhile_eq_self_iff]
  intro k hk
  obtain ⟨e, he, rfl⟩ := List.mem_map.mp hk
  simp [bound_eq_false_iff.mp hno e he]

theorem filterMap_lookup {es : List (κ × ν)} (hd : Distinct es) {f : κ → Option ν}
    (hf : ∀ k, f k = lookup k es) :
    ((es.map Prod.fst).filterMap fun k => (f k).map (k, ·)) = es := by
  have hlookup (e : κ × ν) (he : e ∈ es) : f e.1 = some e.2 := by
    rw [hf]
    exact (lookup_eq_some_iff hd).mpr ⟨e, he, BEq.rfl, rfl⟩
  have hself : es.filterMap (fun e => (f e.1).map (e.1, ·)) = es.filterMap some :=
    List.filterMap_congr fun e he => by rw [hlookup e he]; rfl
  rw [List.filterMap_map]
  exact hself.trans List.filterMap_some

include hcongr

theorem Inv.inStep {d : OrderedDict τ κ ν} {es : List (κ × ν)} (h : Inv sxhash d es)
    (hno : bound eof es = false) : InStep sxhash eof d es := by
  have horder := keyOrder_of_represents h.keys
  have hget (k : κ) : hamtGet sxhash d.dictStorage k = lookup k es := by
    rw [hamtGet_eq_lookup hcongr h.valid, h.enum.agrees]
  refine ⟨h.distinct, horder, hget, ?_, ?_⟩
  · rw [collectionSize, h.valid.count]
    exact h.enum.length_eq ⟨h.distinct, fun _ => rfl⟩
  · rw [collectionSeq, iteratedKeys_of_no_eof horder hno]
    exact filterMap_lookup h.distinct hget

omit hcongr in
theorem enumerates_upsert {es l : List (κ × ν)} (h : Enumerates l fun k => lookup k es) (key : κ)
    (val : ν) : Enumerates (put key val l) fun k => lookup k (upsert key val es) := by
  have hmap : (fun k => lookup k (upsert key val es)) = FMap.insert (fun k => lookup k es) key
    val :=
    funext fun k => lookup_upsert key k val es
  rw [hmap]
  exact h.put key val

/-- The insertion both `collection-conj` and `collection-assoc` make in the HAMT. -/
theorem Inv.assocRoot {d : OrderedDict τ κ ν} {es : List (κ × ν)} (h : Inv sxhash d es) (key : κ)
    (val : ν) :
    ∃ r : Node τ κ ν × Bool, HashTrie.assocRoot d.dictStorage.root (sxhash key) key val = some r ∧
      r.2 = !bound key es ∧
      ({ count := if r.2 then d.dictStorage.count + 1 else d.dictStorage.count
         root := some r.1 } : Hamt τ κ ν).Valid sxhash ∧
      Enumerates (rootEntries (some r.1)) fun k => lookup k (upsert key val es) := by
  obtain ⟨h', hassoc, hvalid, hperm⟩ := hamtAssoc_spec hcongr h.valid key val
  rw [hamtAssoc, Option.map_eq_some_iff] at hassoc
  obtain ⟨r, hr, rfl⟩ := hassoc
  have hbound : bound key (rootEntries d.dictStorage.root) = bound key es := by
    rw [h.enum.bound_iff, lookup_isSome]
  have hcount := hvalid.count
  rw [hperm.length_eq, length_put h.enum.distinct, hbound, ← h.valid.count] at hcount
  refine ⟨r, hr, ?_, hvalid, (enumerates_upsert h.enum key val).perm hperm⟩
  cases hb : bound key es <;> cases hr2 : r.2 <;> simp [hb, hr2] at hcount ⊢

theorem Inv.collectionConj {d : OrderedDict τ κ ν} {es : List (κ × ν)} (h : Inv sxhash d es)
    (key : κ) (val : ν) :
    ∃ d', d.collectionConj sxhash key val = some d' ∧ Inv sxhash d' (upsert key val es) := by
  obtain ⟨r, hr, hadded, hvalid, henum⟩ := h.assocRoot hcongr key val
  have hconj : d.collectionConj sxhash key val = some
      { dictStorage :=
          { count := if r.2 then d.dictStorage.count + 1 else d.dictStorage.count, root :=
            some r.1 }
        storage := if r.2 then vecTConj d.storage key else d.storage } :=
    congrArg (Option.map _) hr
  refine ⟨_, hconj, hvalid, henum, h.distinct.upsert key val, ?_⟩
  rw [keys_upsert, hadded]
  cases bound key es with
  | true => exact h.keys
  | false => exact vecTConj_represents h.keys key

theorem Inv.collectionDissoc {d : OrderedDict τ κ ν} {es : List (κ × ν)} (h : Inv sxhash d es)
    (hno : bound eof es = false) (key : κ) :
    Inv sxhash (d.collectionDissoc sxhash eof key) (without key es) := by
  have hget : hamtGet sxhash d.dictStorage key = lookup key es := by
    rw [hamtGet_eq_lookup hcongr h.valid, h.enum.agrees]
  rw [OrderedDict.collectionDissoc, hget]
  cases hl : lookup key es with
  | none =>
    rw [without_eq_self (lookup_eq_none_iff.mp hl)]
    exact h
  | some v =>
    obtain ⟨hvalid, hperm⟩ := hamtDissoc_spec hcongr h.valid key
    have hmap : (fun k => lookup k (without key es)) = FMap.erase (fun k => lookup k es) key :=
      funext fun k => lookup_without key k es
    refine ⟨hvalid, ?_, h.distinct.without key, ?_⟩
    · rw [hmap]
      exact (h.enum.without key).perm hperm
    · have hkeys : (without key es).map Prod.fst =
          (es.map Prod.fst).filter fun k => !(k == key) := by
        rw [without, List.filter_map]
        rfl
      rw [hkeys, iteratedKeys_of_no_eof (keyOrder_of_represents h.keys) hno]
      exact buildVecTFromList_represents _

theorem Inv.assocAll {d : OrderedDict τ κ ν} {es : List (κ × ν)} (h : Inv sxhash d es)
    (pairs : List (κ × ν)) :
    ∃ d', pairs.foldlM (fun d p => d.collectionConj sxhash p.1 p.2) d = some d' ∧
      Inv sxhash d' (upsertAll es pairs) := by
  induction pairs generalizing d es with
  | nil => exact ⟨d, rfl, h⟩
  | cons p pairs ih =>
    obtain ⟨d₁, hd₁, h₁⟩ := h.collectionConj hcongr p.1 p.2
    obtain ⟨d', hd', h'⟩ := ih h₁
    refine ⟨d', ?_, h'⟩
    rw [List.foldlM_cons, hd₁]
    exact hd'

/-- A dict that `make` returns is in step: the bulk load is the fold of `hamt-assoc`. -/
theorem inv_make [DecidableEq τ] {token : τ} {args : List (κ × ν)} {d : OrderedDict τ κ ν}
    (h : make sxhash token args = .ok d) : Inv sxhash d (upsertAll [] args) := by
  have hload : ∃ hamt, hamtBulkLoad sxhash token args = .ok hamt ∧
      d = { dictStorage := hamt, storage :=
        buildVecTFromList (firsts [] (args.map Prod.fst)) } := by
    rw [make] at h
    obtain ⟨hamt, hl, hd⟩ := bind_pure_eq_ok.mp h
    exact ⟨hamt, hl, hd.symm⟩
  obtain ⟨hamt, hl, rfl⟩ := hload
  obtain ⟨hv, he⟩ := hamtBulkLoad_spec hcongr hl
  have hmap : (fun k => lookup k args.reverse) = fun k => lookup k (upsertAll [] args) :=
    funext fun k => by rw [lookup_upsertAll, lookup_nil, Option.or_none]
  rw [hmap] at he
  refine ⟨hv, he, Distinct.upsertAll distinct_nil args, ?_⟩
  rw [keys_upsertAll]
  exact buildVecTFromList_represents _

end Steps

/-! ## §4 Runs -/

/-- The operation carries the key vector along, and no `:eof` comes in as a key. -/
def Op.CarriesBoth [BEq κ] (eof : κ) : Op κ ν → Prop
  | .conj key _ => (key == eof) = false
  | .collectionAssoc _ _ => False
  | .assoc key val kvs => bound eof ((key, val) :: kvs) = false
  | .merge colls => colls.flatten = []
  | .dissoc _ => True

section Runs

variable [BEq κ] [EquivBEq κ] {sxhash : κ → Nat} {eof : κ}
  (hcongr : ∀ a b : κ, (a == b) = true → sxhash a = sxhash b)

omit [EquivBEq κ] in
/-- An `:eof` among the keys ends the iteration before its own pair. -/
theorem InStep.no_eof {d : OrderedDict τ κ ν} {es : List (κ × ν)} (h : InStep sxhash eof d es) :
    bound eof es = false := by
  rw [bound_eq_false_iff]
  intro e he
  rw [← h.seq] at he
  obtain ⟨k, hk, hpair⟩ := List.mem_filterMap.mp he
  obtain ⟨v, -, rfl⟩ := Option.map_eq_some_iff.mp hpair
  simpa using List.mem_takeWhile_imp hk

omit [EquivBEq κ] in
theorem InStep.storage_ne {d : OrderedDict τ κ ν} {es : List (κ × ν)} (h : InStep sxhash eof d es)
    (hes : es ≠ []) : d.storage ≠ {} := by
  intro hstorage
  have horder := h.order
  rw [keyOrder, hstorage] at horder
  exact hes (List.map_eq_nil_iff.mp horder.symm)

omit [EquivBEq κ] in
theorem storage_of_collectionAssoc {d d' : OrderedDict τ κ ν} {key : κ} {val : ν}
    (h : d.collectionAssoc sxhash key val = some d') : d'.storage = {} := by
  obtain ⟨hamt, -, rfl⟩ := Option.map_eq_some_iff.mp h
  rfl

omit [EquivBEq κ] in
theorem storage_of_merge {d d' : OrderedDict τ κ ν} {pairs : List (κ × ν)} (hpairs : pairs ≠ [])
    (h : pairs.foldlM (fun d p => d.collectionAssoc sxhash p.1 p.2) d = some d') :
    d'.storage = {} := by
  induction pairs generalizing d with
  | nil => exact absurd rfl hpairs
  | cons p pairs ih =>
    rw [List.foldlM_cons] at h
    obtain ⟨d₁, hd₁, h⟩ := Option.bind_eq_some_iff.mp h
    cases pairs with
    | nil =>
      cases h
      exact storage_of_collectionAssoc hd₁
    | cons q pairs => exact ih (List.cons_ne_nil q pairs) h

omit [EquivBEq κ] in
theorem upsertAll_of_ne_nil (es : List (κ × ν)) {pairs : List (κ × ν)} (h : pairs ≠ []) :
    upsertAll es pairs ≠ [] := by
  cases pairs with
  | nil => exact absurd rfl h
  | cons p pairs => exact upsertAll_ne_nil (upsert_ne_nil p.1 p.2 es) pairs

/-- Only an operation that carries both slots leaves the dict in step. -/
theorem carriesBoth_of_inStep {d d' : OrderedDict τ κ ν} {es : List (κ × ν)} {op : Op κ ν}
    (hstep : step sxhash eof d op = some d') (h : InStep sxhash eof d' (absStep es op)) :
    op.CarriesBoth eof := by
  cases op with
  | conj key val =>
    have hno := h.no_eof
    rw [absStep, bound_upsert, Bool.or_eq_false_iff] at hno
    exact hno.1
  | collectionAssoc key val =>
    exact h.storage_ne (upsert_ne_nil key val es) (storage_of_collectionAssoc hstep)
  | assoc key val kvs =>
    have hno := h.no_eof
    rw [absStep, bound_upsertAll, Bool.or_eq_false_iff] at hno
    exact hno.2
  | merge colls =>
    by_contra hne
    exact h.storage_ne (upsertAll_of_ne_nil es hne) (storage_of_merge hne hstep)
  | dissoc key => trivial

include hcongr

/-- The step lemma: an operation that carries both slots keeps the invariant. -/
theorem Inv.step {d : OrderedDict τ κ ν} {es : List (κ × ν)} (h : Inv sxhash d es)
    (hno : bound eof es = false) {op : Op κ ν} (hop : op.CarriesBoth eof) :
    ∃ d', OrderedDict.step sxhash eof d op = some d' ∧ Inv sxhash d' (absStep es op) ∧
      bound eof (absStep es op) = false := by
  cases op with
  | conj key val =>
    obtain ⟨d', hd', h'⟩ := h.collectionConj hcongr key val
    refine ⟨d', hd', h', ?_⟩
    rw [absStep, bound_upsert, hop, hno]
    rfl
  | collectionAssoc key val => exact hop.elim
  | assoc key val kvs =>
    obtain ⟨d', hd', h'⟩ := h.assocAll hcongr ((key, val) :: kvs)
    refine ⟨d', hd', h', ?_⟩
    rw [absStep, bound_upsertAll, hno, hop]
    rfl
  | merge colls =>
    have hnil : colls.flatten = [] := hop
    refine ⟨d, ?_, ?_, ?_⟩
    · simp [OrderedDict.step, merge, hnil]
    · simpa [absStep, hnil, upsertAll] using h
    · simpa [absStep, hnil, upsertAll] using hno
  | dissoc key =>
    refine ⟨_, rfl, h.collectionDissoc hcongr hno key, ?_⟩
    rw [absStep, bound_eq_false_iff] at *
    exact fun e he => hno e (List.mem_filter.mp he).1

/-- The run lemma: every state of the run is in step exactly when every operation
carries both slots. -/
theorem Inv.run_iff {d : OrderedDict τ κ ν} {es : List (κ × ν)} (h : Inv sxhash d es)
    (hno : bound eof es = false) (ops : List (Op κ ν)) :
    (∀ done, done <+: ops → ∃ d', run sxhash eof d done = some d' ∧
      InStep sxhash eof d' (absRun es done)) ↔ ∀ op ∈ ops, op.CarriesBoth eof := by
  induction ops generalizing d es with
  | nil =>
    refine iff_of_true (fun done hdone => ?_) (by simp)
    rw [List.prefix_nil.mp hdone]
    exact ⟨d, rfl, h.inStep hcongr hno⟩
  | cons op ops ih =>
    constructor
    · intro hall
      obtain ⟨d₁, hrun, hin⟩ := hall [op] (by simp)
      have hstep : OrderedDict.step sxhash eof d op = some d₁ := by
        simpa [run] using hrun
      have hop := carriesBoth_of_inStep hstep hin
      obtain ⟨d₁', hstep', h', hno'⟩ := h.step hcongr hno hop
      rw [hstep] at hstep'
      cases hstep'
      have hrest := (ih h' hno').mp fun done hdone => by
        obtain ⟨d', hd', hin'⟩ := hall (op :: done) (List.cons_prefix_cons.mpr ⟨rfl, hdone⟩)
        refine ⟨d', ?_, hin'⟩
        rw [run, List.foldlM_cons, hstep] at hd'
        exact hd'
      exact List.forall_mem_cons.mpr ⟨hop, hrest⟩
    · intro hall done hdone
      obtain ⟨hop, hrest⟩ := List.forall_mem_cons.mp hall
      cases done with
      | nil => exact ⟨d, rfl, h.inStep hcongr hno⟩
      | cons op' done =>
        obtain ⟨rfl, hrest'⟩ := List.cons_prefix_cons.mp hdone
        obtain ⟨d₁, hstep, h', hno'⟩ := h.step hcongr hno hop
        obtain ⟨d', hd', hin'⟩ := (ih h' hno').mpr hrest done hrest'
        refine ⟨d', ?_, hin'⟩
        rw [run, List.foldlM_cons, hstep]
        exact hd'

/-- From a dict that `make` returned, every state of a run has its key order in step with
its map exactly when no operation is a `collection-assoc`, or a `merge` with something to
merge, and no key is `:eof`. -/
theorem ordered_dict_in_step_iff [DecidableEq τ] (token : τ) {args : List (κ × ν)}
    {d : OrderedDict τ κ ν} (hmake : make sxhash token args = .ok d) (ops : List (Op κ ν)) :
    (∀ done, done <+: ops → ∃ d', run sxhash eof d done = some d' ∧
        InStep sxhash eof d' (absRun (upsertAll [] args) done)) ↔
      bound eof args = false ∧ ∀ op ∈ ops, op.CarriesBoth eof := by
  have hinv := inv_make hcongr hmake
  have hbound : bound eof (upsertAll [] args) = bound eof args := by simp [bound_upsertAll]
  constructor
  · intro hall
    obtain ⟨d', hd', hin⟩ := hall [] List.nil_prefix
    have hno := hin.no_eof
    exact ⟨hbound ▸ hno, (hinv.run_iff hcongr hno ops).mp hall⟩
  · rintro ⟨hno, hops⟩
    exact (hinv.run_iff hcongr (hbound.trans hno) ops).mpr hops

end Runs

/-- Two keys with one hash, the first conjoined again and removed. -/
theorem ordered_dict_in_step_iff_conj :
    ∃ d : OrderedDict Unit String Nat, make (fun _ => 0) () [("a", 1), ("b", 2)] = .ok d ∧
      ((∀ done, done <+: [.conj "a" 3, .dissoc "a", .assoc "a" 4 []] →
          ∃ d', run (fun _ => 0) ":eof" d done = some d' ∧
            InStep (fun _ => 0) ":eof" d' (absRun (upsertAll [] [("a", 1), ("b", 2)]) done)) ↔
        bound ":eof" [("a", 1), ("b", 2)] = false ∧
          ∀ op ∈ [Op.conj "a" 3, .dissoc "a", .assoc "a" 4 []], op.CarriesBoth ":eof") :=
  ⟨_, rfl, ordered_dict_in_step_iff (fun _ _ _ => rfl) () rfl _⟩

/-- `collection-assoc` leaves a dict of one binding whose key vector is empty. -/
theorem collection_assoc_loses_order :
    ∃ d d' : OrderedDict Unit String Nat, make (fun _ => 0) () [("a", 1)] = .ok d ∧
      run (fun _ => 0) ":eof" d [.collectionAssoc "b" 2] = some d' ∧
      d'.collectionSize = 2 ∧ d'.collectionSeq (fun _ => 0) ":eof" = [] ∧
      ¬ InStep (fun _ => 0) ":eof" d'
      (absRun (upsertAll [] [("a", 1)]) [.collectionAssoc "b" 2]) := by
  refine ⟨_, _, rfl, rfl, rfl, rfl, fun h => ?_⟩
  exact absurd h.seq (by decide)

end OrderedDict

end Fol.Collections
