/-
Fol.HashTrie.PersistentTheorems — the persistent trie refines a finite map.

One specification lemma for each operation, over the path invariant: lookup
reads the bindings, insertion puts one binding, removal drops one, merging two
leaves keeps both. The run lemma `run_spec` carries them along any sequence of
`hamt-assoc` and `hamt-dissoc`, and `hamt_refines_map` reads off lookup, count
and iteration.

  §1 Children at an index   — the array accesses of the three traversals.
  §2 Lookup                 — `findNode_eq_lookup`.
  §3 Insertion              — `mergeLeaves_spec`, `assocNode_spec`.
  §4 Removal                — `dissocNode_spec`.
  §5 Iteration              — `iteratorCalls_eq`.
  §6 Runs                   — `run_spec`, `hamt_refines_map`.
-/
import Fol.HashTrie.Invariant

namespace Fol.HashTrie

open Lib

variable {τ κ ν : Type}

/-! ## §1 Children at an index -/

section AtIndex

variable [BEq κ]

theorem findChild_at (l r : List (Node τ κ ν)) (x : Node τ κ ν) (shift hash : Nat) (key : κ) :
    findChild (l ++ x :: r) l.length shift hash key = findNode x shift hash key := by
  induction l with
  | nil => rfl
  | cons y l ih => exact ih

theorem assocChild_at (l r : List (Node τ κ ν)) (x : Node τ κ ν) (shift hash : Nat) (key : κ)
    (value : ν) :
    assocChild (l ++ x :: r) l.length shift hash key value =
      (assocNode x shift hash key value).map fun p => (l ++ p.1 :: r, p.2) := by
  induction l with
  | nil => rfl
  | cons y l ih =>
    rw [List.cons_append, List.length_cons, assocChild, ih, Option.map_map]
    rfl

theorem dissocChild_at (l r : List (Node τ κ ν)) (x : Node τ κ ν) (shift hash : Nat) (key : κ) :
    dissocChild (l ++ x :: r) l.length shift hash key = dissocNode x shift hash key := by
  induction l with
  | nil => rfl
  | cons y l ih => exact ih

end AtIndex

theorem cloneAndInsert_at {α : Type} (l r : List α) (x : α) :
    cloneAndInsert (l ++ r) l.length x = l ++ x :: r := by
  simp [cloneAndInsert]

theorem cloneAndRemove_at {α : Type} (l r : List α) (x : α) :
    cloneAndRemove (l ++ x :: r) l.length = l ++ r := by
  simp [cloneAndRemove, List.eraseIdx_append_of_length_le]

theorem set_at {α : Type} (l r : List α) (x y : α) :
    (l ++ x :: r).set l.length y = l ++ y :: r := by
  simp

/-- The element `findIdx?` finds, with the elements before it. -/
theorem exists_of_findIdx? {α : Type} {p : α → Bool} {xs : List α} {i : Nat}
    (h : xs.findIdx? p = some i) :
    ∃ l x r, xs = l ++ x :: r ∧ l.length = i ∧ p x = true ∧ ∀ y ∈ l, p y = false := by
  induction xs generalizing i with
  | nil => simp at h
  | cons a xs ih =>
    rw [List.findIdx?_cons] at h
    cases hp : p a with
    | true =>
      rw [hp] at h
      simp only [if_true, Option.some.injEq] at h
      exact ⟨[], a, xs, rfl, h, hp, by simp⟩
    | false =>
      rw [hp, if_neg (by decide)] at h
      obtain ⟨j, hj, rfl⟩ := Option.map_eq_some_iff.mp h
      obtain ⟨l, x, r, rfl, rfl, hx, hl⟩ := ih hj
      refine ⟨a :: l, x, r, rfl, rfl, hx, ?_⟩
      intro y hy
      rcases List.mem_cons.mp hy with rfl | hy
      · exact hp
      · exact hl y hy

/-! ## §2 Lookup -/

section Spec

variable [BEq κ] [EquivBEq κ] {sxhash : κ → Nat}

/-- Distinctness of the leaves before and after the one that holds `key`. -/
theorem bucket_sides {l r : List (Leaf κ ν)} {x : Leaf κ ν} {key : κ}
    (hd : Distinct ((l ++ x :: r).map Leaf.binding)) (hx : (x.key == key) = true) :
    bound key (l.map Leaf.binding) = false ∧ bound key (r.map Leaf.binding) = false := by
  rw [List.map_append, List.map_cons] at hd
  obtain ⟨-, hxr, hlx⟩ := List.pairwise_append.mp hd
  constructor
  · refine bound_eq_false_iff.mpr fun e he => ?_
    have := hlx e he x.binding List.mem_cons_self
    rwa [beq_congr_right (show (x.binding.1 == key) = true from hx)] at this
  · refine bound_eq_false_iff.mpr fun e he => ?_
    have := (List.pairwise_cons.mp hxr).1 e he
    rw [beq_congr_left (show (x.binding.1 == key) = true from hx)] at this
    exact beq_false_symm this

omit [EquivBEq κ] in
theorem bucket_lookup (leaves : List (Leaf κ ν)) (key : κ) :
    (leaves.find? fun l => l.key == key).map (·.value) = lookup key (leaves.map Leaf.binding) := by
  rw [lookup, List.find?_map, Option.map_map]
  rfl

omit [EquivBEq κ] in
theorem findIdx?_none_bound {leaves : List (Leaf κ ν)} {key : κ}
    (h : (leaves.findIdx? fun l => l.key == key) = none) :
    bound key (leaves.map Leaf.binding) = false := by
  rw [bound_eq_false_iff]
  intro e he
  obtain ⟨l, hl, rfl⟩ := List.mem_map.mp he
  exact List.findIdx?_eq_none_iff.mp h l hl

variable (hcongr : ∀ a b : κ, (a == b) = true → sxhash a = sxhash b)
include hcongr

omit [EquivBEq κ] in
/-- Lookup reads the bindings. -/
theorem findNode_eq_lookup {n : Node τ κ ν} {shift pre : Nat} {key : κ} (hpre : pre < 2 ^ shift)
    (h : n.Wf sxhash shift pre) (hf : n.Frozen) (hkey : sxhash key % 2 ^ shift = pre) :
    findNode n shift (sxhash key) key = lookup key n.entries := by
  induction n generalizing shift pre with
  | leaf l =>
    rw [findNode, entries_leaf]
    cases hk : l.key == key with
    | true => rw [lookup_cons_pos [] (show (l.binding.1 == key) = true from hk)]; rfl
    | false => rw [lookup_cons_neg [] (show (l.binding.1 == key) = false from hk)]; rfl
  | collision hash leaves => exact bucket_lookup leaves key
  | tnode => exact absurd hf frozen_tnode
  | node bitmap children ih =>
    obtain ⟨-, hch⟩ := (wf_node_iff sxhash).mp h
    have hfz := frozen_node.mp hf
    rw [findNode, entries_node]
    simp only [and_bit_eq_zero]
    cases hbit : bitmap.testBit (chunk (sxhash key) shift) with
    | false =>
      rw [if_pos rfl]
      obtain ⟨l, r, rfl, -, hl, hr⟩ := children_at_clear (chunk_lt _ _) hbit hch
      symm
      rw [lookup_eq_none_iff, entriesList_append, bound_append,
        not_bound_below hcongr hpre hl, not_bound_above hcongr hpre hr]
      rfl
    | true =>
      rw [if_neg (by decide)]
      obtain ⟨l, x, r, rfl, hlen, hl, hx, hr⟩ := children_at_set (chunk_lt _ _) hbit hch
      rw [hamtIndex, ← hlen, findChild_at,
        ih x (by simp) (extend_lt hpre (chunk_lt _ _)) hx (hfz x (by simp))
          (by rw [mod_extend, hkey]),
        entriesList_append, entriesList_cons, ← List.append_assoc,
        lookup_middle _ (not_bound_below hcongr hpre hl) (not_bound_above hcongr hpre hr)]

/-- A well-formed node binds no key twice. -/
theorem Node.Wf.distinct {n : Node τ κ ν} {shift pre : Nat} (hpre : pre < 2 ^ shift)
    (h : n.Wf sxhash shift pre) : Distinct n.entries := by
  have children {children : List (Node τ κ ν)} {shift pre : Nat} {cs : List Nat}
      (ih : ∀ c ∈ children, ∀ {shift pre : Nat}, pre < 2 ^ shift → c.Wf sxhash shift pre →
        Distinct c.entries)
      (hpre : pre < 2 ^ shift) (hch : List.Forall₂ (ChildWf sxhash shift pre) cs children)
      (hcs : ∀ c ∈ cs, c < 32) (hnd : cs.Nodup) : Distinct (entriesList children) := by
    induction hch with
    | nil => exact distinct_nil
    | @cons c n cs ns hn hns ihl =>
      obtain ⟨hc, hnd⟩ := List.nodup_cons.mp hnd
      have hlt := hcs c List.mem_cons_self
      have hcs' : ∀ d ∈ cs, d < 32 := fun d hd => hcs d (List.mem_cons_of_mem _ hd)
      rw [entriesList_cons]
      refine List.pairwise_append.mpr ⟨ih n List.mem_cons_self (extend_lt hpre hlt) hn,
        ihl (fun d hd => ih d (List.mem_cons_of_mem _ hd)) hcs' hnd, fun e he e' he' => ?_⟩
      -- the keys below slot `c` have chunk `c`, and no later slot is `c`
      have hchunk := chunk_of_extend hpre (hn.mem_path (extend_lt hpre hlt) he)
      have hnb : bound e.1 (entriesList _) = false := not_bound_off_slots hcongr hpre hns hcs'
        fun d hd heq => hc (by rw [hchunk] at heq; exact heq ▸ hd)
      exact beq_false_symm (bound_eq_false_iff.mp hnb e' he')
  induction n generalizing shift pre with
  | leaf l => exact List.pairwise_singleton _ _
  | collision hash leaves => exact h.2.2
  | node bitmap cs ih =>
    exact children ih hpre ((wf_node_iff sxhash).mp h).2 (fun c hc => lt_of_mem_slots hc)
      (slots_nodup _ _)
  | tnode token bitmap cs ih =>
    exact children ih hpre ((wf_tnode_iff sxhash).mp h).2 (fun c hc => lt_of_mem_slots hc)
      (slots_nodup _ _)

/-! ## §3 Insertion -/

omit [EquivBEq κ] hcongr in
/-- Merging two leaves of the path whose keys differ keeps both bindings. -/
theorem mergeLeaves_spec {leaf1 leaf2 : Leaf κ ν} {fuel shift pre : Nat} (hpre : pre < 2 ^ shift)
    (h1 : leaf1.Wf sxhash shift pre) (h2 : leaf2.Wf sxhash shift pre)
    (hkeys : (leaf1.key == leaf2.key) = false)
    (hfuel : leaf1.hash / 2 ^ shift + leaf2.hash / 2 ^ shift < fuel) :
    ∃ n : Node τ κ ν, mergeLeaves fuel shift leaf1 leaf2 = some n ∧ n.Wf sxhash shift pre ∧
      n.Frozen ∧ n.entries.Perm [leaf1.binding, leaf2.binding] := by
  induction fuel generalizing shift pre with
  | zero => exact absurd hfuel (Nat.not_lt_zero _)
  | succ fuel ih =>
    rw [mergeLeaves]
    by_cases hh : leaf1.hash = leaf2.hash
    · rw [if_pos hh]
      refine ⟨_, rfl, ⟨by simp, by simp [h1, h2], ?_⟩, by simp, by simp⟩
      exact List.pairwise_pair.mpr hkeys
    · rw [if_neg hh]
      -- the low bits agree, so the high bits of the two hashes differ
      have hne : leaf1.hash / 2 ^ shift ≠ leaf2.hash / 2 ^ shift := by
        intro heq
        have d1 := Nat.div_add_mod leaf1.hash (2 ^ shift)
        have d2 := Nat.div_add_mod leaf2.hash (2 ^ shift)
        rw [h1.2] at d1
        rw [h2.2, ← heq] at d2
        omega
      by_cases hc : chunk leaf1.hash shift = chunk leaf2.hash shift
      · simp only [hc, if_true]
        obtain ⟨hne', hlt⟩ := merge_measure hne hc
        obtain ⟨n, hn, hwf, hfz, hperm⟩ := ih (extend_lt hpre (chunk_lt leaf1.hash shift))
          h1.extend (by rw [hc]; exact h2.extend) (by omega)
        rw [hn]
        refine ⟨_, rfl, ?_, by simpa using hfz, by simpa using hperm⟩
        rw [wf_node_iff, slots_single (chunk_lt _ _)]
        refine ⟨?_, .cons (by rw [← hc]; exact hwf) .nil⟩
        rw [Nat.one_shiftLeft]
        exact Nat.pow_lt_pow_right (by decide) (chunk_lt _ _)
      · simp only [hc, if_false]
        have hb : 1 <<< chunk leaf1.hash shift ||| 1 <<< chunk leaf2.hash shift < 2 ^ 32 := by
          refine or_bit_lt ?_ (chunk_lt _ _)
          rw [Nat.one_shiftLeft]
          exact Nat.pow_lt_pow_right (by decide) (chunk_lt _ _)
        by_cases hlt : chunk leaf1.hash shift < chunk leaf2.hash shift
        · rw [if_pos hlt]
          refine ⟨_, rfl, ?_, by simp, by simp⟩
          rw [wf_node_iff, slots_pair hlt (chunk_lt _ _)]
          exact ⟨hb, .cons h1.extend (.cons h2.extend .nil)⟩
        · rw [if_neg hlt]
          refine ⟨_, rfl, ?_, by simp, by simpa using List.Perm.swap _ _ _⟩
          rw [wf_node_iff, Nat.or_comm, slots_pair (by omega) (chunk_lt _ _), Nat.or_comm]
          exact ⟨hb, .cons h2.extend (.cons h1.extend .nil)⟩

omit [EquivBEq κ] hcongr in
/-- The fuel of the source's two callers covers the recursion. -/
theorem mergeLeaves_ok {leaf1 leaf2 : Leaf κ ν} {shift pre : Nat} (hpre : pre < 2 ^ shift)
    (h1 : leaf1.Wf sxhash shift pre) (h2 : leaf2.Wf sxhash shift pre)
    (hkeys : (leaf1.key == leaf2.key) = false) :
    ∃ n : Node τ κ ν, mergeLeaves (mergeFuel leaf1 leaf2) shift leaf1 leaf2 = some n ∧
      n.Wf sxhash shift pre ∧ n.Frozen ∧ n.entries.Perm [leaf1.binding, leaf2.binding] := by
  refine mergeLeaves_spec hpre h1 h2 hkeys ?_
  have hle1 := Nat.div_le_self leaf1.hash (2 ^ shift)
  have hle2 := Nat.div_le_self leaf2.hash (2 ^ shift)
  rw [mergeFuel]
  omega

/-- What an insertion does to the bindings. -/
structure Inserts (key : κ) (value : ν) (before after : List (κ × ν)) (added : Bool) : Prop where
  perm : after.Perm (put key value before)
  added : added = !bound key before

omit [EquivBEq κ] hcongr in
/-- An insertion into the segment `m` that is the only one with the key. -/
theorem Inserts.middle {key : κ} {value : ν} {l r m m' : List (κ × ν)} {added : Bool}
    (h : Inserts key value m m' added) (hl : bound key l = false) (hr : bound key r = false) :
    Inserts key value (l ++ m ++ r) (l ++ m' ++ r) added :=
  ⟨perm_put_middle hl hr h.perm, by rw [bound_middle m hl hr, h.added]⟩

omit [EquivBEq κ] hcongr in
/-- Inserting a key that is nowhere bound. -/
theorem Inserts.fresh {key : κ} {value : ν} {es : List (κ × ν)} (h : bound key es = false) :
    Inserts key value es ((key, value) :: es) true :=
  ⟨by rw [put, without_eq_self h], by rw [h]; rfl⟩

omit hcongr in
/-- Overwriting the leaf of a bucket that holds the key. -/
theorem bucket_inserts {l r : List (Leaf κ ν)} {x : Leaf κ ν} {key : κ} (value : ν) (hash : Nat)
    (hd : Distinct ((l ++ x :: r).map Leaf.binding)) (hx : (x.key == key) = true) :
    Inserts key value ((l ++ x :: r).map Leaf.binding)
      ((l ++ ⟨hash, key, value⟩ :: r).map Leaf.binding) false := by
  obtain ⟨hl, hr⟩ := bucket_sides hd hx
  have hxb : (x.binding.1 == key) = true := hx
  have one : Inserts key value [x.binding] [(key, value)] false :=
    ⟨by simp [put, without, hxb], by simp [bound, hxb]⟩
  simpa [Leaf.binding] using one.middle hl hr

/-- Insertion puts one binding, keeps the path invariant and never fails. -/
theorem assocNode_spec {n : Node τ κ ν} {shift pre : Nat} {key : κ} {value : ν}
    (hpre : pre < 2 ^ shift) (h : n.Wf sxhash shift pre) (hf : n.Frozen)
    (hkey : sxhash key % 2 ^ shift = pre) :
    ∃ n' added, assocNode n shift (sxhash key) key value = some (n', added) ∧
      n'.Wf sxhash shift pre ∧ n'.Frozen ∧ Inserts key value n.entries n'.entries added := by
  induction n generalizing shift pre with
  | leaf l =>
    have hnew : Leaf.Wf sxhash shift pre ⟨sxhash key, key, value⟩ := ⟨rfl, hkey⟩
    rw [assocNode]
    cases hk : l.key == key with
    | true =>
      have hlb : (l.binding.1 == key) = true := hk
      exact ⟨_, _, rfl, hnew, trivial, ⟨by simp [put, without, hk, Leaf.binding], by
        simp [bound, hlb]⟩⟩
    | false =>
      have hlb : (l.binding.1 == key) = false := hk
      obtain ⟨n, hn, hwf, hfz, hperm⟩ := mergeLeaves_ok (τ := τ) hpre h hnew hk
      rw [if_neg (by decide), hn]
      refine ⟨n, true, rfl, hwf, hfz, ⟨?_, by simp [bound, hlb]⟩⟩
      refine hperm.trans (List.Perm.trans (List.Perm.swap _ _ _) ?_)
      simp [put, without, hk, Leaf.binding]
  | collision hash leaves =>
    obtain ⟨hlen, hwf, hd⟩ := h
    have hnew : Leaf.Wf sxhash shift pre ⟨sxhash key, key, value⟩ := ⟨rfl, hkey⟩
    rw [assocNode]
    cases hfind : leaves.findIdx? fun l => l.key == key with
    | none =>
      have hnb := findIdx?_none_bound hfind
      have hins : Inserts key value (leaves.map Leaf.binding)
          ((⟨sxhash key, key, value⟩ :: leaves).map Leaf.binding) true := Inserts.fresh hnb
      refine ⟨_, _, rfl, ⟨by simp; omega, ?_, ?_⟩, trivial, hins⟩
      · intro l hl
        rcases List.mem_cons.mp hl with rfl | hl
        · exact hnew
        · exact hwf l hl
      · exact (hd.put key value).perm hins.perm.symm
    | some i =>
      obtain ⟨l, x, r, rfl, rfl, hx, -⟩ := exists_of_findIdx? hfind
      have hins := bucket_inserts value (sxhash key) hd hx
      simp only [set_at]
      refine ⟨_, _, rfl, ⟨by simpa using hlen, ?_, ?_⟩, trivial, hins⟩
      · intro y hy
        rcases List.mem_append.mp hy with hy | hy
        · exact hwf y (by simp [hy])
        · rcases List.mem_cons.mp hy with rfl | hy
          · exact hnew
          · exact hwf y (by simp [hy])
      · exact (hd.put key value).perm hins.perm.symm
  | tnode => exact absurd hf frozen_tnode
  | node bitmap children ih =>
    obtain ⟨hb, hch⟩ := (wf_node_iff sxhash).mp h
    have hfz := frozen_node.mp hf
    have hc := chunk_lt (sxhash key) shift
    rw [assocNode]
    simp only [and_bit_eq_zero]
    cases hbit : bitmap.testBit (chunk (sxhash key) shift) with
    | false =>
      obtain ⟨l, r, rfl, hlen, hl, hr⟩ := children_at_clear hc hbit hch
      have hbl := not_bound_below hcongr hpre hl
      have hbr := not_bound_above hcongr hpre hr
      have hnew : ChildWf (τ := τ) sxhash shift pre (chunk (sxhash key) shift)
          (.leaf ⟨sxhash key, key, value⟩) := ⟨rfl, by rw [mod_extend, hkey]⟩
      rw [if_pos rfl, hamtIndex, ← hlen, cloneAndInsert_at]
      refine ⟨_, _, rfl, ?_, ?_, ?_⟩
      · exact (wf_node_iff sxhash).mpr ⟨or_bit_lt hb hc, children_set hc hl hnew hr⟩
      · refine frozen_node.mpr fun n hn => ?_
        rcases List.mem_append.mp hn with hn | hn
        · exact hfz n (by simp [hn])
        · rcases List.mem_cons.mp hn with rfl | hn
          · exact trivial
          · exact hfz n (by simp [hn])
      · have hfresh : Inserts key value [] [(key, value)] true := Inserts.fresh (bound_nil key)
        simpa [Leaf.binding] using hfresh.middle hbl hbr
    | true =>
      obtain ⟨l, x, r, rfl, hlen, hl, hx, hr⟩ := children_at_set hc hbit hch
      have hbl := not_bound_below hcongr hpre hl
      have hbr := not_bound_above hcongr hpre hr
      obtain ⟨x', added, hx', hwf', hfz', hins⟩ := ih x (by simp) (extend_lt hpre hc) hx
        (hfz x (by simp)) (by rw [mod_extend, hkey])
      rw [if_neg (by decide), hamtIndex, ← hlen, assocChild_at, hx']
      refine ⟨_, _, rfl, ?_, ?_, ?_⟩
      · exact (wf_node_iff sxhash).mpr ⟨hb, children_replace hc hbit hl hwf' hr⟩
      · refine frozen_node.mpr fun n hn => ?_
        rcases List.mem_append.mp hn with hn | hn
        · exact hfz n (by simp [hn])
        · rcases List.mem_cons.mp hn with rfl | hn
          · exact hfz'
          · exact hfz n (by simp [hn])
      · simpa using hins.middle hbl hbr

/-! ## §4 Removal -/

/-- What a removal does to the bindings. -/
structure Removes (key : κ) (before after : List (κ × ν)) (removed : Bool) : Prop where
  perm : after.Perm (without key before)
  removed : removed = bound key before

omit [EquivBEq κ] hcongr in
theorem Removes.middle {key : κ} {l r m m' : List (κ × ν)} {removed : Bool}
    (h : Removes key m m' removed) (hl : bound key l = false) (hr : bound key r = false) :
    Removes key (l ++ m ++ r) (l ++ m' ++ r) removed :=
  ⟨perm_without_middle hl hr h.perm, by rw [bound_middle m hl hr, h.removed]⟩

omit [EquivBEq κ] hcongr in
theorem Removes.absent {key : κ} {es : List (κ × ν)} (h : bound key es = false) :
    Removes key es es false :=
  ⟨by rw [without_eq_self h], h.symm⟩

omit hcongr in
theorem bucket_removes {l r : List (Leaf κ ν)} {x : Leaf κ ν} {key : κ}
    (hd : Distinct ((l ++ x :: r).map Leaf.binding)) (hx : (x.key == key) = true) :
    Removes key ((l ++ x :: r).map Leaf.binding) ((l ++ r).map Leaf.binding) true := by
  obtain ⟨hl, hr⟩ := bucket_sides hd hx
  have hxb : (x.binding.1 == key) = true := hx
  have one : Removes key [x.binding] [] true := ⟨by simp [without, hxb], by simp [bound, hxb]⟩
  simpa using one.middle hl hr

omit [EquivBEq κ] hcongr in
theorem shrinkBucket_spec {leaves : List (Leaf κ ν)} (hash : Nat) {shift pre : Nat}
    (hne : leaves ≠ []) (hwf : ∀ l ∈ leaves, l.Wf sxhash shift pre)
    (hd : Distinct (leaves.map Leaf.binding)) :
    (shrinkBucket (τ := τ) hash leaves).Wf sxhash shift pre ∧
      (shrinkBucket (τ := τ) hash leaves).Frozen ∧
      (shrinkBucket (τ := τ) hash leaves).entries = leaves.map Leaf.binding := by
  match leaves with
  | [] => exact absurd rfl hne
  | [l] => exact ⟨hwf l (by simp), trivial, rfl⟩
  | l₁ :: l₂ :: ls => exact ⟨⟨by simp, hwf, hd⟩, trivial, rfl⟩

omit [EquivBEq κ] hcongr in
/-- Shrinking a routing node keeps the path invariant: a leaf that moves up is
on the shorter path as well. -/
theorem shrinkNode_spec {bitmap shift pre : Nat} {children : List (Node τ κ ν)}
    (hpre : pre < 2 ^ shift) (hb : bitmap < 2 ^ 32)
    (hch : List.Forall₂ (ChildWf sxhash shift pre) (slots 32 bitmap) children)
    (hfz : ∀ c ∈ children, c.Frozen) :
    rootEntries (shrinkNode bitmap children) = entriesList children ∧
      ∀ n ∈ shrinkNode bitmap children, n.Wf sxhash shift pre ∧ n.Frozen := by
  unfold shrinkNode
  split
  · next h0 =>
    subst h0
    rw [slots_zero] at hch
    rw [List.forall₂_nil_left_iff.mp hch]
    exact ⟨rfl, by simp⟩
  · split
    · next l =>
      obtain ⟨c, cs, hc, -, -⟩ := List.forall₂_cons_right_iff.mp hch
      exact ⟨by simp, by simpa using Leaf.Wf.retract (l := l) hpre hc⟩
    · refine ⟨rfl, ?_⟩
      intro n hn
      cases hn
      exact ⟨(wf_node_iff sxhash).mpr ⟨hb, hch⟩, frozen_node.mpr hfz⟩

/-- Removal drops the key's binding and keeps the path invariant. -/
theorem dissocNode_spec {n : Node τ κ ν} {shift pre : Nat} {key : κ}
    (hpre : pre < 2 ^ shift) (h : n.Wf sxhash shift pre) (hf : n.Frozen)
    (hkey : sxhash key % 2 ^ shift = pre) :
    ∃ n' removed, dissocNode n shift (sxhash key) key = (n', removed) ∧
      (∀ m ∈ n', m.Wf sxhash shift pre ∧ m.Frozen) ∧
      Removes key n.entries (rootEntries n') removed := by
  induction n generalizing shift pre with
  | leaf l =>
    rw [dissocNode]
    cases hk : l.key == key with
    | true =>
      have hlb : (l.binding.1 == key) = true := hk
      exact ⟨none, true, rfl, by simp, ⟨by simp [without, hlb], by simp [bound, hlb]⟩⟩
    | false =>
      have hlb : (l.binding.1 == key) = false := hk
      exact ⟨some (.leaf l), false, rfl, by simpa using h, Removes.absent (by simp [bound, hlb])⟩
  | collision hash leaves =>
    obtain ⟨hlen, hwf, hd⟩ := h
    rw [dissocNode]
    cases hfind : leaves.findIdx? fun l => l.key == key with
    | none =>
      exact ⟨_, _, rfl, by simpa using ⟨hlen, hwf, hd⟩, Removes.absent (findIdx?_none_bound hfind)⟩
    | some i =>
      obtain ⟨l, x, r, rfl, rfl, hx, -⟩ := exists_of_findIdx? hfind
      have hrem := bucket_removes hd hx
      have hcut : (l ++ x :: r).eraseIdx l.length = l ++ r := cloneAndRemove_at l r x
      obtain ⟨h1, h2, h3⟩ := shrinkBucket_spec (τ := τ) (sxhash key)
        (show l ++ r ≠ [] by
          intro hnil
          have h0 : (l ++ r).length = 0 := by rw [hnil]; rfl
          simp only [List.length_append, List.length_cons] at h0 hlen
          omega)
        (fun y hy => hwf y (by
          rcases List.mem_append.mp hy with hy | hy <;> simp [hy]))
        ((hd.without key).perm hrem.perm.symm)
      simp only [hcut]
      refine ⟨_, _, rfl, by simpa using ⟨h1, h2⟩, ?_⟩
      rw [rootEntries_some, h3]
      exact hrem
  | tnode => exact absurd hf frozen_tnode
  | node bitmap children ih =>
    obtain ⟨hb, hch⟩ := (wf_node_iff sxhash).mp h
    have hfz := frozen_node.mp hf
    have hc := chunk_lt (sxhash key) shift
    rw [dissocNode]
    simp only [and_bit_eq_zero]
    cases hbit : bitmap.testBit (chunk (sxhash key) shift) with
    | false =>
      obtain ⟨l, r, rfl, -, hl, hr⟩ := children_at_clear hc hbit hch
      rw [if_pos rfl]
      refine ⟨_, _, rfl, by simpa using ⟨h, fun n hn => hfz n (by simpa using hn)⟩, ?_⟩
      exact Removes.absent (by
        rw [entries_node, entriesList_append, bound_append, not_bound_below hcongr hpre hl,
          not_bound_above hcongr hpre hr]
        rfl)
    | true =>
      obtain ⟨l, x, r, rfl, hlen, hl, hx, hr⟩ := children_at_set hc hbit hch
      have hbl := not_bound_below hcongr hpre hl
      have hbr := not_bound_above hcongr hpre hr
      obtain ⟨x', removed, hx', hok, hrem⟩ := ih x (by simp) (extend_lt hpre hc) hx
        (hfz x (by simp)) (by rw [mod_extend, hkey])
      have hmid := hrem.middle hbl hbr
      rw [if_neg (by decide), hamtIndex, ← hlen, dissocChild_at, hx']
      cases removed with
      | false =>
        refine ⟨_, _, rfl, by simpa using ⟨h, fun n hn => hfz n (by simpa using hn)⟩, ?_⟩
        refine Removes.absent ?_
        rw [entries_node, entriesList_append, entriesList_cons, ← List.append_assoc]
        exact hmid.removed.symm
      | true =>
        cases x' with
        | none =>
          simp only [cloneAndRemove_at]
          obtain ⟨he, hgood⟩ := shrinkNode_spec hpre (logandc2_lt hb) (children_unset hc hl hr)
            fun n hn => hfz n (by rcases List.mem_append.mp hn with hn | hn <;> simp [hn])
          refine ⟨_, _, rfl, hgood, ?_⟩
          rw [he]
          simpa using hmid
        | some x' =>
          simp only [set_at]
          obtain ⟨hxwf, hxfz⟩ := hok x' rfl
          refine ⟨_, _, rfl, ?_, by simpa using hmid⟩
          intro m hm
          cases hm
          refine ⟨(wf_node_iff sxhash).mpr ⟨hb, children_replace hc hbit hl hxwf hr⟩, ?_⟩
          refine frozen_node.mpr fun n hn => ?_
          rcases List.mem_append.mp hn with hn | hn
          · exact hfz n (by simp [hn])
          · rcases List.mem_cons.mp hn with rfl | hn
            · exact hxfz
            · exact hfz n (by simp [hn])

end Spec

/-! ## §5 Iteration -/

/-- One iterator call yields the first binding below the stack, or `:eof` when
there is none, and leaves the others. -/
theorem iteratorNext_spec (stack : List (Node τ κ ν)) (hf : ∀ n ∈ stack, n.Frozen) :
    (iteratorNext stack).1 = (entriesList stack).head? ∧
      entriesList (iteratorNext stack).2 = (entriesList stack).tail ∧
      ∀ n ∈ (iteratorNext stack).2, n.Frozen := by
  have leaves (ls : List (Leaf κ ν)) :
      entriesList (ls.map (Node.leaf : Leaf κ ν → Node τ κ ν)) = ls.map Leaf.binding := by
    induction ls with
    | nil => rfl
    | cons l ls ih => simp [ih]
  induction stack using iteratorNext.induct with
  | case1 => simp [iteratorNext]
  | case2 l stack =>
    rw [iteratorNext]
    exact ⟨rfl, rfl, fun n hn => hf n (List.mem_cons_of_mem _ hn)⟩
  | case3 hash ls stack ih =>
    rw [iteratorNext]
    have := ih (by
      intro n hn
      rcases List.mem_append.mp hn with hn | hn
      · obtain ⟨l, -, rfl⟩ := List.mem_map.mp hn
        exact trivial
      · exact hf n (List.mem_cons_of_mem _ hn))
    simpa [leaves] using this
  | case4 bitmap children stack ih =>
    rw [iteratorNext]
    have := ih (by
      intro n hn
      rcases List.mem_append.mp hn with hn | hn
      · exact frozen_node.mp (hf _ List.mem_cons_self) n hn
      · exact hf n (List.mem_cons_of_mem _ hn))
    simpa using this
  | case5 token bitmap children stack => exact absurd (hf _ List.mem_cons_self) frozen_tnode

/-- The iterator yields the bindings in order, each once, and then only `:eof`. -/
theorem iteratorCalls_eq (n : Nat) (stack : List (Node τ κ ν)) (hf : ∀ m ∈ stack, m.Frozen) :
    iteratorCalls n stack =
      ((entriesList stack).take n).map some ++
        List.replicate (n - (entriesList stack).length) none := by
  induction n generalizing stack with
  | zero => simp [iteratorCalls]
  | succ n ih =>
    obtain ⟨h1, h2, h3⟩ := iteratorNext_spec stack hf
    rw [iteratorCalls, ih _ h3, h1, h2]
    cases entriesList stack with
    | nil => simp [List.replicate_succ]
    | cons e es => simp

/-! ## §6 Runs -/

/-- One operation on a persistent trie. -/
inductive Op (κ ν : Type) where
  | assoc (key : κ) (value : ν)
  | dissoc (key : κ)

section Runs

variable [BEq κ]

/-- One operation of a run; `none` is an operation that does not return. -/
def step (sxhash : κ → Nat) (h : Hamt τ κ ν) : Op κ ν → Option (Hamt τ κ ν)
  | .assoc key value => hamtAssoc sxhash h key value
  | .dissoc key => some (hamtDissoc sxhash h key)

/-- The trie a sequence of operations builds from `h`. -/
def run (sxhash : κ → Nat) (h : Hamt τ κ ν) (ops : List (Op κ ν)) : Option (Hamt τ κ ν) :=
  ops.foldlM (step sxhash) h

/-- What one operation means on a finite map. -/
def absStep (m : FMap κ ν) : Op κ ν → FMap κ ν
  | .assoc key value => m.insert key value
  | .dissoc key => m.erase key

def absRun (m : FMap κ ν) (ops : List (Op κ ν)) : FMap κ ν := ops.foldl absStep m

/-- What holds of every trie the API builds: the root satisfies the path
invariant at depth 0, has no transient node, and the count field is the number
of bindings. -/
structure Hamt.Valid (sxhash : κ → Nat) (h : Hamt τ κ ν) : Prop where
  wf : ∀ n ∈ h.root, n.Wf sxhash 0 0
  frozen : ∀ n ∈ h.root, n.Frozen
  count : h.count = (rootEntries h.root).length

theorem Hamt.Valid.empty (sxhash : κ → Nat) : ({} : Hamt τ κ ν).Valid sxhash :=
  ⟨by simp, by simp, rfl⟩

variable [EquivBEq κ] {sxhash : κ → Nat}
  (hcongr : ∀ a b : κ, (a == b) = true → sxhash a = sxhash b)
include hcongr

theorem Hamt.Valid.distinct {h : Hamt τ κ ν} (hv : h.Valid sxhash) :
    Distinct (rootEntries h.root) := by
  cases hr : h.root with
  | none => exact distinct_nil
  | some n => exact (hv.wf n hr).distinct hcongr (by simp)

omit [EquivBEq κ] in
theorem hamtGet_eq_lookup {h : Hamt τ κ ν} (hv : h.Valid sxhash) (key : κ) :
    hamtGet sxhash h key = lookup key (rootEntries h.root) := by
  rw [hamtGet]
  cases hr : h.root with
  | none => rfl
  | some n =>
    exact findNode_eq_lookup hcongr (by simp) (hv.wf n hr) (hv.frozen n hr) (Nat.mod_one _)

/-- `hamt-assoc` returns a valid trie with the one binding put. -/
theorem hamtAssoc_spec {h : Hamt τ κ ν} (hv : h.Valid sxhash) (key : κ) (value : ν) :
    ∃ h', hamtAssoc sxhash h key value = some h' ∧ h'.Valid sxhash ∧
      (rootEntries h'.root).Perm (put key value (rootEntries h.root)) := by
  have hroot : ∃ n added, assocRoot h.root (sxhash key) key value = some (n, added) ∧
      n.Wf sxhash 0 0 ∧ n.Frozen ∧
      Inserts key value (rootEntries h.root) n.entries added := by
    cases hr : h.root with
    | none =>
      exact ⟨_, _, rfl, ⟨rfl, Nat.mod_one _⟩, trivial, Inserts.fresh (bound_nil key)⟩
    | some n =>
      exact assocNode_spec hcongr (by simp) (hv.wf n hr) (hv.frozen n hr) (Nat.mod_one _)
  obtain ⟨n, added, hn, hwf, hfz, hins⟩ := hroot
  refine ⟨{ count := if added then h.count + 1 else h.count, root := some n },
    by rw [hamtAssoc, hn]; rfl, ⟨by simpa using hwf, by simpa using hfz, ?_⟩, hins.perm⟩
  rw [rootEntries_some, hins.perm.length_eq, length_put (hv.distinct hcongr),
    hins.added, ← hv.count]
  cases bound key (rootEntries h.root) <;> rfl

/-- `hamt-dissoc` returns a valid trie without the key. -/
theorem hamtDissoc_spec {h : Hamt τ κ ν} (hv : h.Valid sxhash) (key : κ) :
    (hamtDissoc sxhash h key).Valid sxhash ∧
      (rootEntries (hamtDissoc sxhash h key).root).Perm (without key (rootEntries h.root)) := by
  rw [hamtDissoc]
  cases hr : h.root with
  | none =>
    simp only
    rw [hr]
    exact ⟨hv, by simp⟩
  | some n =>
    obtain ⟨n', removed, hn, hok, hrem⟩ := dissocNode_spec hcongr (by simp)
      (hv.wf n hr) (hv.frozen n hr) (Nat.mod_one (sxhash key))
    have hlen := length_without ((hv.wf n hr).distinct hcongr (by simp)) key
    have hcount := hv.count
    rw [hr, rootEntries_some] at hcount
    simp only [hn]
    cases removed with
    | true =>
      refine ⟨⟨fun m hm => (hok m hm).1, fun m hm => (hok m hm).2, ?_⟩, hrem.perm⟩
      rw [← hrem.removed] at hlen
      simp only [hrem.perm.length_eq, hcount, if_true] at hlen ⊢
      omega
    | false =>
      simp only [hr]
      exact ⟨hv, by rw [rootEntries_some, without_eq_self hrem.removed.symm]⟩

/-- Step lemma: one operation keeps the trie valid and its bindings those of the
map. -/
theorem step_spec {h : Hamt τ κ ν} {m : FMap κ ν} (hv : h.Valid sxhash)
    (he : Enumerates (rootEntries h.root) m) (op : Op κ ν) :
    ∃ h', step sxhash h op = some h' ∧ h'.Valid sxhash ∧
      Enumerates (rootEntries h'.root) (absStep m op) := by
  cases op with
  | assoc key value =>
    obtain ⟨h', hh', hv', hp⟩ := hamtAssoc_spec hcongr hv key value
    exact ⟨h', hh', hv', (he.put key value).perm hp⟩
  | dissoc key =>
    obtain ⟨hv', hp⟩ := hamtDissoc_spec hcongr hv key
    exact ⟨_, rfl, hv', (he.without key).perm hp⟩

/-- Run lemma: the same along any sequence of operations. -/
theorem run_spec {h : Hamt τ κ ν} {m : FMap κ ν} (hv : h.Valid sxhash)
    (he : Enumerates (rootEntries h.root) m) (ops : List (Op κ ν)) :
    ∃ h', run sxhash h ops = some h' ∧ h'.Valid sxhash ∧
      Enumerates (rootEntries h'.root) (absRun m ops) := by
  induction ops generalizing h m with
  | nil => exact ⟨h, rfl, hv, he⟩
  | cons op ops ih =>
    obtain ⟨h₁, hstep, hv₁, he₁⟩ := step_spec hcongr hv he op
    obtain ⟨h', hrun, hv', he'⟩ := ih hv₁ he₁
    refine ⟨h', ?_, hv', he'⟩
    rw [run, List.foldlM_cons, hstep]
    exact hrun

/-- The persistent trie refines a finite map: after any sequence of `hamt-assoc`
and `hamt-dissoc`, lookup answers as the map does, the count is the number of
bound keys, and the iterator yields every binding exactly once and then only
`:eof`. -/
theorem hamt_refines_map (ops : List (Op κ ν)) :
    ∃ h : Hamt τ κ ν, run sxhash {} ops = some h ∧
      (∀ key, hamtGet sxhash h key = absRun FMap.empty ops key) ∧
      HasCount (absRun FMap.empty ops) h.count ∧
      ∃ es, Enumerates es (absRun FMap.empty ops) ∧
        ∀ n, iteratorCalls n (hamtIterator h) =
          (es.take n).map some ++ List.replicate (n - es.length) none := by
  obtain ⟨h, hrun, hv, he⟩ := run_spec hcongr (Hamt.Valid.empty (τ := τ) (ν := ν) sxhash)
    Enumerates.nil ops
  have hiter : entriesList (hamtIterator h) = rootEntries h.root := by
    rw [hamtIterator]
    cases h.root <;> simp
  refine ⟨h, hrun, fun key => ?_, ⟨_, he, hv.count.symm⟩, _, he, fun n => ?_⟩
  · rw [hamtGet_eq_lookup hcongr hv, he.agrees]
  · rw [← hiter]
    exact iteratorCalls_eq n _ fun m hm => hv.frozen m (Option.mem_toList.mp hm)

end Runs

/-- Three keys in one bucket (all hashes equal), one overwritten and one removed. -/
theorem hamt_refines_map_colliding :
    ∃ h : Hamt Unit Nat Nat,
      run (fun _ => 7) {} [.assoc 1 10, .assoc 2 20, .assoc 3 30, .assoc 2 21, .dissoc 1] = some h ∧
      (∀ key, hamtGet (fun _ => 7) h key =
        absRun FMap.empty [.assoc 1 10, .assoc 2 20, .assoc 3 30, .assoc 2 21, .dissoc 1] key) ∧
      HasCount (absRun (κ := Nat) (ν := Nat) FMap.empty
        [.assoc 1 10, .assoc 2 20, .assoc 3 30, .assoc 2 21, .dissoc 1]) h.count ∧
      ∃ es, Enumerates es (absRun FMap.empty
          [.assoc 1 10, .assoc 2 20, .assoc 3 30, .assoc 2 21, .dissoc 1]) ∧
        ∀ n, iteratorCalls n (hamtIterator h) =
          (es.take n).map some ++ List.replicate (n - es.length) none :=
  hamt_refines_map (fun _ _ _ => rfl) _

end Fol.HashTrie
