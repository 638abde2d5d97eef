/-
Fol.HashTrie.Buckets — the hash a collision bucket stores and the hashes of its leaves.

`merge-leaves` makes a bucket of two leaves with one hash, at whatever depth they meet.
`assoc-node` then adds to a bucket every key whose path ends in it: it does not compare the
hash of the key with the hash of the bucket. A bucket stays one of a single hash exactly as long
as no insertion comes upon it with another hash.
-/
import Fol.HashTrie.TransientTheorems

namespace Fol.HashTrie

open Lib

variable {τ κ ν : Type}

/-! ## §1 Uniform -/

mutual

/-- All leaves of a bucket have the hash stored in it. -/
def Node.Uniform : Node τ κ ν → Prop
  | .leaf _ => True
  | .collision hash leaves => ∀ l ∈ leaves, l.hash = hash
  | .node _ children => UniformList children
  | .tnode _ _ children => UniformList children

def UniformList : List (Node τ κ ν) → Prop
  | [] => True
  | n :: ns => n.Uniform ∧ UniformList ns

end

theorem uniformList_iff {ns : List (Node τ κ ν)} : UniformList ns ↔ ∀ n ∈ ns, n.Uniform := by
  induction ns with
  | nil => simp [UniformList]
  | cons n ns ih => simp [UniformList, ih]

@[simp] theorem uniform_leaf (l : Leaf κ ν) : (Node.leaf l : Node τ κ ν).Uniform := trivial
@[simp] theorem uniform_collision {hash : Nat} {leaves : List (Leaf κ ν)} :
    (Node.collision hash leaves : Node τ κ ν).Uniform ↔ ∀ l ∈ leaves, l.hash = hash := Iff.rfl
@[simp] theorem uniform_node {b : Nat} {ns : List (Node τ κ ν)} :
    (Node.node b ns).Uniform ↔ ∀ n ∈ ns, n.Uniform := uniformList_iff

/-- The buckets of a trie, each with its hash. -/
inductive BucketIn (hash : Nat) (leaves : List (Leaf κ ν)) : Node τ κ ν → Prop where
  | here : BucketIn hash leaves (.collision hash leaves)
  | node {bitmap : Nat} {children : List (Node τ κ ν)} {c : Node τ κ ν} (hc : c ∈ children)
      (h : BucketIn hash leaves c) : BucketIn hash leaves (.node bitmap children)

/-- A bucket of another hash. -/
def otherBucket (hash : Nat) : Node τ κ ν → Bool
  | .collision h _ => h ≠ hash
  | _ => false

@[simp] theorem otherBucket_leaf (hash : Nat) (l : Leaf κ ν) :
    otherBucket hash (.leaf l : Node τ κ ν) = false := rfl
@[simp] theorem otherBucket_node (hash b : Nat) (ns : List (Node τ κ ν)) :
    otherBucket hash (.node b ns) = false := rfl

/-- In a uniform trie the hash of a bucket is that of its keys. -/
theorem Node.Uniform.bucket {n : Node τ κ ν} (h : n.Uniform) {hash : Nat} {leaves : List (Leaf κ ν)}
    (hb : BucketIn hash leaves n) : ∀ l ∈ leaves, l.hash = hash := by
  induction hb with
  | here => exact h
  | node hc _ ih => exact ih (uniform_node.mp h _ hc)

theorem uniform_of_buckets {n : Node τ κ ν} (hf : n.Frozen)
    (h : ∀ hash leaves, BucketIn hash leaves n → ∀ l ∈ leaves, l.hash = hash) : n.Uniform := by
  induction n with
  | leaf l => trivial
  | collision hash leaves => exact h hash leaves .here
  | node bitmap children ih =>
    rw [uniform_node]
    intro c hc
    exact ih c hc (frozen_node.mp hf c hc) fun hash leaves hb => h hash leaves (.node hc hb)
  | tnode => exact absurd hf frozen_tnode

/-! ## §2 Steps -/

section Steps

theorem mergeLeaves_uniform {leaf1 leaf2 : Leaf κ ν} {fuel shift : Nat} {n : Node τ κ ν}
    (h : mergeLeaves fuel shift leaf1 leaf2 = some n) : n.Uniform := by
  induction fuel generalizing shift n with
  | zero => cases h
  | succ fuel ih =>
    rw [mergeLeaves] at h
    by_cases hh : leaf1.hash = leaf2.hash
    · rw [if_pos hh] at h
      cases h
      simp [hh]
    · rw [if_neg hh] at h
      dsimp only at h
      by_cases hc : chunk leaf1.hash shift = chunk leaf2.hash shift
      · rw [if_pos hc] at h
        obtain ⟨child, hchild, rfl⟩ := Option.map_eq_some_iff.mp h
        simpa using ih hchild
      · rw [if_neg hc] at h
        cases h
        rw [uniform_node]
        intro c hmem
        split at hmem <;> simp at hmem <;> rcases hmem with rfl | rfl <;> trivial

variable [BEq κ] {sxhash : κ → Nat} (hcongr : ∀ a b : κ, (a == b) = true → sxhash a = sxhash b)

include hcongr

/-- An insertion into a uniform trie leaves a uniform trie exactly when the path of the key ends in
no bucket of another hash. -/
theorem assocNode_uniform_iff {n n' : Node τ κ ν} {shift pre : Nat} {key : κ} {value : ν}
    {added : Bool} (h : n.Wf sxhash shift pre) (hf : n.Frozen) (hu : n.Uniform)
    (hassoc : assocNode n shift (sxhash key) key value = some (n', added)) :
    n'.Uniform ↔ onPath (otherBucket (sxhash key)) n shift (sxhash key) = false := by
  induction n generalizing shift pre n' added with
  | leaf l =>
    rw [assocNode] at hassoc
    have hn' : n'.Uniform := by
      split at hassoc
      · cases hassoc
        trivial
      · obtain ⟨m, hm, heq⟩ := Option.map_eq_some_iff.mp hassoc
        cases heq
        exact mergeLeaves_uniform hm
    simp [hn', onPath]
  | collision hash leaves =>
    obtain ⟨hlen, hwf, -⟩ := h
    have hpath : onPath (otherBucket (sxhash key)) (.collision hash leaves : Node τ κ ν) shift
        (sxhash key) = false ↔ hash = sxhash key := by simp [onPath, otherBucket]
    rw [hpath]
    rw [assocNode] at hassoc
    cases hfind : leaves.findIdx? fun l => l.key == key with
    | none =>
      rw [hfind] at hassoc
      cases hassoc
      constructor
      · intro hn'
        -- the bucket has a leaf, whose hash is both
        obtain ⟨l, hl⟩ := List.exists_mem_of_length_pos (Nat.lt_of_lt_of_le Nat.zero_lt_two hlen)
        rw [← hu l hl]
        exact hn' l (List.mem_cons_of_mem _ hl)
      · rintro rfl
        intro l hl
        rcases List.mem_cons.mp hl with rfl | hl
        · rfl
        · exact hu l hl
    | some i =>
      rw [hfind] at hassoc
      cases hassoc
      obtain ⟨l, x, r, rfl, rfl, hx, -⟩ := exists_of_findIdx? hfind
      have hhash : hash = sxhash key := by
        rw [← hu x (by simp), (hwf x (by simp)).1]
        exact hcongr _ _ hx
      simp only [hhash, iff_true]
      rw [set_at]
      intro y hy
      rcases List.mem_append.mp hy with hy | hy
      · rw [← hhash]
        exact hu y (by simp [hy])
      · rcases List.mem_cons.mp hy with rfl | hy
        · rfl
        · rw [← hhash]
          exact hu y (by simp [hy])
  | tnode => exact absurd hf frozen_tnode
  | node bitmap children ih =>
    obtain ⟨hb, hch⟩ := (wf_node_iff sxhash).mp h
    have hfz := frozen_node.mp hf
    rw [uniform_node] at hu
    have hc := chunk_lt (sxhash key) shift
    rw [assocNode] at hassoc
    rw [onPath, otherBucket_node, Bool.false_or]
    simp only [and_bit_eq_zero] at hassoc
    cases hbit : bitmap.testBit (chunk (sxhash key) shift) with
    | false =>
      obtain ⟨l, r, rfl, hlen, -, -⟩ := children_at_clear hc hbit hch
      rw [if_pos hbit, hamtIndex, ← hlen, cloneAndInsert_at] at hassoc
      cases hassoc
      have hzero : bitmap &&& 1 <<< chunk (sxhash key) shift = 0 := by rw [and_bit_eq_zero, hbit]
      simp only [hzero, beq_self_eq_true, Bool.not_true, Bool.false_and, iff_true]
      rw [uniform_node]
      intro c hmem
      rcases List.mem_append.mp hmem with hmem | hmem
      · exact hu c (by simp [hmem])
      · rcases List.mem_cons.mp hmem with rfl | hmem
        · trivial
        · exact hu c (by simp [hmem])
    | true =>
      obtain ⟨l, x, r, rfl, hlen, -, hx, -⟩ := children_at_set hc hbit hch
      have hzero : ¬ (bitmap &&& 1 <<< chunk (sxhash key) shift = 0) := by
        rw [and_bit_eq_zero, hbit]
        exact Bool.noConfusion
      rw [if_neg (by rw [hbit]; exact Bool.noConfusion), hamtIndex, ← hlen, assocChild_at] at hassoc
      obtain ⟨r', hr', heq⟩ := Option.map_eq_some_iff.mp hassoc
      obtain ⟨r'', hr'', rfl⟩ := Option.map_eq_some_iff.mp hr'
      cases heq
      rw [hamtIndex, ← hlen, onPathChild_at, beq_eq_false_iff_ne.mpr hzero, Bool.not_false,
        Bool.true_and, ← ih x (by simp) hx (hfz x (by simp)) (hu x (by simp)) hr'', uniform_node]
      constructor
      · intro hall
        exact hall _ (by simp)
      · intro hx' c hmem
        rcases List.mem_append.mp hmem with hmem | hmem
        · exact hu c (by simp [hmem])
        · rcases List.mem_cons.mp hmem with rfl | hmem
          · exact hx'
          · exact hu c (by simp [hmem])

omit [BEq κ] hcongr in
theorem shrinkBucket_uniform {hash : Nat} {leaves : List (Leaf κ ν)}
    (h : ∀ l ∈ leaves, l.hash = hash) :
    (shrinkBucket hash leaves : Node τ κ ν).Uniform := by
  unfold shrinkBucket
  split
  · trivial
  · exact h

omit [BEq κ] hcongr in
theorem shrinkNode_uniform {bitmap : Nat} {children : List (Node τ κ ν)}
    (h : ∀ c ∈ children, c.Uniform) : ∀ n ∈ shrinkNode bitmap children, n.Uniform := by
  unfold shrinkNode
  intro n hn
  split at hn
  · simp at hn
  · split at hn
    · cases hn
      trivial
    · cases hn
      exact uniform_node.mpr h

/-- A removal keeps a trie uniform. -/
theorem dissocNode_uniform {n : Node τ κ ν} {shift pre : Nat} {key : κ} (h : n.Wf sxhash shift pre)
    (hf : n.Frozen) (hu : n.Uniform) :
    ∀ m ∈ (dissocNode n shift (sxhash key) key).1, m.Uniform := by
  induction n generalizing shift pre with
  | leaf l =>
    intro m hm
    rw [dissocNode] at hm
    split at hm
    · simp at hm
    · cases hm
      trivial
  | collision hash leaves =>
    obtain ⟨-, hwf, -⟩ := h
    intro m hm
    rw [dissocNode] at hm
    cases hfind : leaves.findIdx? fun l => l.key == key with
    | none =>
      rw [hfind] at hm
      cases hm
      exact hu
    | some i =>
      rw [hfind] at hm
      cases hm
      obtain ⟨l, x, r, rfl, rfl, hx, -⟩ := exists_of_findIdx? hfind
      have hhash : hash = sxhash key := by
        rw [← hu x (by simp), (hwf x (by simp)).1]
        exact hcongr _ _ hx
      refine shrinkBucket_uniform fun y hy => ?_
      rw [← hhash]
      exact hu y (List.mem_of_mem_eraseIdx hy)
  | tnode => exact absurd hf frozen_tnode
  | node bitmap children ih =>
    obtain ⟨-, hch⟩ := (wf_node_iff sxhash).mp h
    have hfz := frozen_node.mp hf
    have hus := uniform_node.mp hu
    have hc := chunk_lt (sxhash key) shift
    intro m hm
    rw [dissocNode] at hm
    simp only [and_bit_eq_zero] at hm
    cases hbit : bitmap.testBit (chunk (sxhash key) shift) with
    | false =>
      rw [if_pos hbit] at hm
      cases hm
      exact hu
    | true =>
      obtain ⟨l, x, r, rfl, hlen, -, hx, -⟩ := children_at_set hc hbit hch
      have hsub := ih x (by simp) hx (hfz x (by simp)) (hus x (by simp))
      rw [if_neg (by rw [hbit]; exact Bool.noConfusion), hamtIndex, ← hlen, dissocChild_at] at hm
      obtain ⟨⟨x', removed⟩, hdissoc⟩ : ∃ r, dissocNode x (shift + bitShift) (sxhash key) key = r :=
        ⟨_, rfl⟩
      rw [hdissoc] at hm hsub
      cases removed with
      | false =>
        cases hm
        exact hu
      | true =>
        cases x' with
        | none =>
          simp only [cloneAndRemove_at] at hm
          exact shrinkNode_uniform (fun c hmem => hus c (by
            rcases List.mem_append.mp hmem with hmem | hmem <;> simp [hmem])) m hm
        | some x' =>
          simp only [set_at] at hm
          cases hm
          rw [uniform_node]
          intro c hmem
          rcases List.mem_append.mp hmem with hmem | hmem
          · exact hus c (by simp [hmem])
          · rcases List.mem_cons.mp hmem with rfl | hmem
            · exact hsub _ rfl
            · exact hus c (by simp [hmem])

end Steps

/-! ## §3 Runs -/

section Runs

/-- Every bucket holds leaves of its own hash only, so that two keys share a bucket only when their
hashes are equal. -/
def BucketsUniform (sxhash : κ → Nat) (h : Hamt τ κ ν) : Prop :=
  ∀ root ∈ h.root, ∀ hash leaves, BucketIn hash leaves root →
    (∀ l ∈ leaves, l.hash = hash) ∧ ∀ l ∈ leaves, ∀ l' ∈ leaves, sxhash l.key = sxhash l'.key

/-- The operation is no insertion whose path ends in a bucket of another hash. -/
def clearOfOthers (sxhash : κ → Nat) (h : Hamt τ κ ν) : Op κ ν → Bool
  | .assoc key _ => !rootOnPath (otherBucket (sxhash key)) h.root (sxhash key)
  | .dissoc _ => true

variable [BEq κ] [EquivBEq κ] {sxhash : κ → Nat}
  (hcongr : ∀ a b : κ, (a == b) = true → sxhash a = sxhash b)

/-- Each operation of the run is clear of the other buckets of the state it is made in. -/
def runClear (sxhash : κ → Nat) (h : Hamt τ κ ν) : List (Op κ ν) → Bool
  | [] => true
  | op :: ops => clearOfOthers sxhash h op && (step sxhash h op).all fun h' =>
      runClear sxhash h' ops

theorem exists_of_forall₂ {α β : Type} {R : α → β → Prop} {as : List α} {bs : List β}
    (h : List.Forall₂ R as bs) {b : β} (hb : b ∈ bs) : ∃ a, R a b := by
  induction h with
  | nil => simp at hb
  | cons hab _ ih =>
    rcases List.mem_cons.mp hb with rfl | hb
    · exact ⟨_, hab⟩
    · exact ih hb

omit [EquivBEq κ] in
/-- Leaves of a bucket store the hash of their key. -/
theorem Node.Wf.stored {n : Node τ κ ν} {hash : Nat} {leaves : List (Leaf κ ν)}
    (hb : BucketIn hash leaves n) {shift pre : Nat} (h : n.Wf sxhash shift pre) :
    ∀ l ∈ leaves, l.hash = sxhash l.key := by
  induction hb generalizing shift pre with
  | here => exact fun l hl => (h.2.1 l hl).1
  | node hc _ ih =>
    obtain ⟨slot, hchild⟩ := exists_of_forall₂ ((wf_node_iff sxhash).mp h).2 hc
    exact ih hchild

omit [EquivBEq κ] in
theorem bucketsUniform_iff {h : Hamt τ κ ν} (hv : h.Valid sxhash) :
    BucketsUniform sxhash h ↔ ∀ n ∈ h.root, n.Uniform := by
  constructor
  · intro hb n hn
    exact uniform_of_buckets (hv.frozen n hn) fun hash leaves hbucket =>
    (hb n hn hash leaves hbucket).1
  · intro hu n hn hash leaves hbucket
    have hleaves := (hu n hn).bucket hbucket
    have hstored := (hv.wf n hn).stored hbucket
    refine ⟨hleaves, fun l hl l' hl' => ?_⟩
    rw [← hstored l hl, ← hstored l' hl', hleaves l hl, hleaves l' hl']

include hcongr

/-- One operation on a trie of uniform buckets. -/
theorem step_uniform_iff {h h' : Hamt τ κ ν} (hv : h.Valid sxhash) (hu : BucketsUniform sxhash h)
    {op : Op κ ν} (hstep : step sxhash h op = some h') :
    BucketsUniform sxhash h' ↔ clearOfOthers sxhash h op = true := by
  have henum : Enumerates (rootEntries h.root) fun k => lookup k (rootEntries h.root) :=
    ⟨hv.distinct hcongr, fun _ => rfl⟩
  obtain ⟨h'', hstep', hv', -⟩ := step_spec hcongr hv henum op
  obtain rfl := Option.some.inj (hstep'.symm.trans hstep)
  rw [bucketsUniform_iff hv']
  rw [bucketsUniform_iff hv] at hu
  cases op with
  | assoc key value =>
    obtain ⟨⟨n', added⟩, hroot, rfl⟩ := Option.map_eq_some_iff.mp hstep
    have hnew : (∀ n ∈ some n', n.Uniform) ↔ n'.Uniform := by simp
    rw [hnew, clearOfOthers, Bool.not_eq_true', rootOnPath]
    cases hr : h.root with
    | none =>
      rw [hr] at hroot
      cases hroot
      simp
    | some n =>
      rw [hr] at hroot
      exact assocNode_uniform_iff hcongr (hv.wf n hr) (hv.frozen n hr) (hu n hr) hroot
  | dissoc key =>
    cases hstep
    simp only [clearOfOthers, iff_true]
    rw [hamtDissoc]
    cases hr : h.root with
    | none => simp [hr]
    | some n =>
      have hsub : ∀ m ∈ (dissocNode n 0 (sxhash key) key).1, m.Uniform :=
        dissocNode_uniform hcongr (hv.wf n hr) (hv.frozen n hr) (hu n hr)
      obtain ⟨⟨n', removed⟩, hdissoc⟩ : ∃ r, dissocNode n 0 (sxhash key) key = r := ⟨_, rfl⟩
      rw [hdissoc] at hsub
      simp only [hdissoc]
      cases removed with
      | true => exact hsub
      | false => exact hu

/-- A run from a trie of uniform buckets. -/
theorem run_uniform_iff {h : Hamt τ κ ν} (hv : h.Valid sxhash) (hu : BucketsUniform sxhash h)
    (ops : List (Op κ ν)) :
    (∀ done, done <+: ops → ∀ h', run sxhash h done = some h' → BucketsUniform sxhash h') ↔
      runClear sxhash h ops = true := by
  induction ops generalizing h with
  | nil =>
    simp only [runClear, iff_true]
    intro done hdone h' hrun
    rw [List.prefix_nil.mp hdone] at hrun
    cases hrun
    exact hu
  | cons op ops ih =>
    have henum : Enumerates (rootEntries h.root) fun k => lookup k (rootEntries h.root) :=
      ⟨hv.distinct hcongr, fun _ => rfl⟩
    obtain ⟨h₁, hstep, hv₁, -⟩ := step_spec hcongr hv henum op
    have hone := step_uniform_iff hcongr hv hu hstep
    rw [runClear, hstep, Option.all_some, Bool.and_eq_true, ← hone]
    have hrest : ∀ done, run sxhash h (op :: done) = run sxhash h₁ done := by
      intro done
      rw [run, List.foldlM_cons, hstep]
      rfl
    constructor
    · intro hall
      have hu₁ : BucketsUniform sxhash h₁ := by
        refine hall [op] (by simp) h₁ ?_
        rw [hrest]
        rfl
      refine ⟨hu₁, (ih hv₁ hu₁).mp fun done hdone h' hrun => ?_⟩
      exact hall (op :: done) (by simpa using hdone) h' (by rw [hrest, hrun])
    · rintro ⟨hu₁, hclear⟩ done hdone h' hrun
      rcases List.prefix_cons_iff.mp hdone with rfl | ⟨done', rfl, hdone'⟩
      · cases hrun
        exact hu
      · rw [hrest] at hrun
        exact (ih hv₁ hu₁).mpr hclear done' hdone' h' hrun

/-- In every state of a run of `hamt-assoc` and `hamt-dissoc` from the empty trie the buckets hold
leaves of their own hash, exactly when no insertion of the run has a path that ends in a bucket of
another hash. -/
theorem runs_uniform_iff (ops : List (Op κ ν)) :
    (∀ done, done <+: ops → ∀ h : Hamt τ κ ν, run sxhash {} done = some h →
      BucketsUniform sxhash h) ↔
      runClear sxhash ({} : Hamt τ κ ν) ops = true := by
  refine run_uniform_iff hcongr (Hamt.Valid.empty sxhash) ?_ ops
  intro root hroot
  simp at hroot

end Runs

/-- Keys 1 and 2 with hash 7 share a bucket, which key 3 with hash 8 does not come to; key 4 with
hash 7 does. -/
theorem runs_uniform_iff_shared :
    (∀ done, done <+: [.assoc 1 10, .assoc 3 30, .assoc 2 20, .assoc 4 40] →
        ∀ h : Hamt Unit Nat Nat, run (fun k => if k = 3 then 8 else 7) {} done = some h →
          BucketsUniform (fun k => if k = 3 then 8 else 7) h) ↔
      runClear (fun k => if k = 3 then 8 else 7) ({} : Hamt Unit Nat Nat)
        [.assoc 1 10, .assoc 3 30, .assoc 2 20, .assoc 4 40] = true :=
  runs_uniform_iff (fun a b h => by rw [eq_of_beq h]) _

/-- Keys 1 and 2 with hash 7 make the root a bucket; key 3 with hash 8 is put into it, and the hash
of the bucket is then 8. -/
theorem bucket_of_two_hashes : ∃ h : Hamt Unit Nat Nat,
    run (fun k => if k = 3 then 8 else 7) {} [.assoc 1 10, .assoc 2 20, .assoc 3 30] = some h ∧
      ¬ BucketsUniform (fun k => if k = 3 then 8 else 7) h := by
  refine ⟨_, rfl, fun hb => ?_⟩
  have hleaves := (hb _ rfl 8 [⟨8, 3, 30⟩, ⟨7, 1, 10⟩, ⟨7, 2, 20⟩] .here).1
  have hseven := hleaves ⟨7, 1, 10⟩ (by simp)
  cases hseven

end Fol.HashTrie
