/-
Fol.HashTrie.Listing — when the order in which a trie lists its keys depends on the operations that
built it.

A trie without collision buckets lists its keys in the order of their hashes (`before`), whatever
was put in first. A bucket comes of two keys with one hash, and keeps the order in which they came.
So the order depends on the keys alone exactly when no two of the keys that may come have one hash.

  §1 Buckets — `NoBucket`, `Hamt.Distinguished`.
  §2 Order   — `Hamt.Distinguished.before`.
  §3 Runs    — `run_keys`, `run_keys_eq`, `run_pair`.
-/
import Fol.HashTrie.Buckets
import Fol.HashTrie.Places

namespace Fol.HashTrie

open Lib

variable {τ κ ν : Type}

def Op.key : Op κ ν → κ
  | .assoc key _ => key
  | .dissoc key => key

/-! ## §1 Buckets -/

def NoBucket (n : Node τ κ ν) : Prop := ∀ hash leaves, ¬ BucketIn hash leaves n

theorem noBucket_node {bitmap : Nat} {children : List (Node τ κ ν)}
    (h : NoBucket (.node bitmap children)) {c : Node τ κ ν} (hc : c ∈ children) :
    NoBucket c := fun hash leaves hb => h hash leaves (.node hc hb)

/-- Without buckets no path ends in one. -/
theorem NoBucket.onPath {n : Node τ κ ν} (h : NoBucket n) (hf : n.Frozen) (hash shift hash' : Nat) :
    onPath (otherBucket hash) n shift hash' = false := by
  induction n generalizing shift with
  | leaf l => rfl
  | collision b leaves => exact absurd .here (h b leaves)
  | tnode => exact absurd hf frozen_tnode
  | node bitmap children ih =>
    have hchild :
      onPathChild (otherBucket hash) children (hamtIndex bitmap (1 <<< chunk hash' shift))
        (shift + bitShift) hash' = false := by
      by_contra hpath
      obtain ⟨c, hc, hp⟩ := exists_of_onPathChild (Bool.eq_true_of_not_eq_false hpath)
      rw [ih c hc (noBucket_node h hc) (frozen_node.mp hf c hc)] at hp
      cases hp
    rw [HashTrie.onPath, hchild, otherBucket_node, Bool.and_false, Bool.or_false]

theorem BucketIn.mem_entries {n : Node τ κ ν} {hash : Nat} {leaves : List (Leaf κ ν)}
    (h : BucketIn hash leaves n) {l : Leaf κ ν} (hl : l ∈ leaves) : l.binding ∈ n.entries := by
  induction h with
  | here => exact List.mem_map_of_mem hl
  | @node bitmap children c hc _ ih =>
    obtain ⟨before, after, rfl⟩ := List.append_of_mem hc
    simp [ih]

section

variable [BEq κ] {sxhash : κ → Nat}

/-- A bucket has two leaves, with different keys. -/
theorem Node.Wf.bucket {n : Node τ κ ν} {hash : Nat} {leaves : List (Leaf κ ν)}
    (hb : BucketIn hash leaves n) {shift pre : Nat} (h : n.Wf sxhash shift pre) :
    ∃ l l' rest, leaves = l :: l' :: rest ∧ (l.key == l'.key) = false := by
  induction hb generalizing shift pre with
  | here =>
    obtain ⟨hlen, -, hdistinct⟩ := h
    cases leaves with
    | nil => cases hlen
    | cons l leaves =>
      cases leaves with
      | nil => exact absurd hlen (by simp)
      | cons l' rest =>
          exact ⟨l, l', rest, rfl, (List.pairwise_cons.mp hdistinct).1 l'.binding (by simp)⟩
  | node hc _ ih =>
    obtain ⟨slot, hchild⟩ := exists_of_forall₂ ((wf_node_iff sxhash).mp h).2 hc
    exact ih hchild

/-- Its keys are in a set of keys with different hashes. -/
structure Hamt.Distinguished (sxhash : κ → Nat) (P : κ → Prop) (h : Hamt τ κ ν) : Prop where
  valid : h.Valid sxhash
  keys : ∀ k ∈ h.keys, P k
  noBucket : ∀ n ∈ h.root, NoBucket n

end

/-! ## §2 Order -/

theorem exists_bucket {n : Node τ κ ν} (hf : n.Frozen) {ks : List κ} (h : ks ∈ n.buckets) :
    ∃ hash leaves, BucketIn hash leaves n := by
  induction n with
  | leaf l => cases h
  | collision hash leaves => exact ⟨hash, leaves, .here⟩
  | tnode => exact absurd hf frozen_tnode
  | node bitmap children ih =>
    obtain ⟨c, hc, hks⟩ := mem_bucketsAll.mp h
    obtain ⟨hash, leaves, hb⟩ := ih c hc (frozen_node.mp hf c hc) hks
    exact ⟨hash, leaves, .node hc hb⟩

/-- Without buckets the keys stand in the order of their hashes. -/
theorem Hamt.Distinguished.before [BEq κ] {sxhash : κ → Nat} {P : κ → Prop} {h : Hamt τ κ ν}
    (hd : h.Distinguished sxhash P) :
    h.keys.Pairwise fun k k' => before 0 (sxhash k) (sxhash k') := by
  refine hd.valid.precedes.imp ?_
  rintro a b (⟨ks, hks, -⟩ | ⟨-, hlt⟩)
  · obtain ⟨n, hn, hks⟩ := mem_bucketsAll.mp hks
    have hroot : h.root = some n := by simpa using hn
    obtain ⟨hash, leaves, hb⟩ := exists_bucket (hd.valid.frozen n hroot) hks
    exact absurd hb (hd.noBucket n hroot hash leaves)
  · exact hlt

/-! ## §3 Runs -/

section

variable [BEq κ] [LawfulBEq κ] {sxhash : κ → Nat} {P : κ → Prop} {h h' : Hamt τ κ ν}

/-- Keys with different hashes share no bucket. -/
theorem distinguished_of_uniform (hinj : ∀ k k', P k → P k' → sxhash k = sxhash k' → k = k')
    (hv : h.Valid sxhash) (hkeys : ∀ k ∈ h.keys, P k) (hu : BucketsUniform sxhash h) :
    h.Distinguished sxhash P := by
  refine ⟨hv, hkeys, fun n hn hash leaves hbucket => ?_⟩
  obtain ⟨l, l', rest, rfl, hne⟩ := (hv.wf n hn).bucket hbucket
  have hP (x : Leaf κ ν) (hx : x ∈ l :: l' :: rest) : P x.key := by
    refine hkeys x.key (List.mem_map.mpr ⟨x.binding, ?_, rfl⟩)
    rw [show h.root = some n from hn]
    exact hbucket.mem_entries hx
  have heq := hinj l.key l'.key (hP l (by simp)) (hP l' (by simp))
    ((hu n hn hash _ hbucket).2 l (by simp) l' (by simp))
  exact absurd heq (ne_of_beq_false hne)

theorem step_valid (hv : h.Valid sxhash) {op : Op κ ν} (hstep : step sxhash h op = some h') :
    h'.Valid sxhash := by
  have hcongr : ∀ a b : κ, (a == b) = true → sxhash a = sxhash b := fun a b hab => by
    rw [eq_of_beq hab]
  obtain ⟨h₁, hstep₁, hv', -⟩ := step_spec hcongr hv ⟨hv.distinct hcongr, fun _ => rfl⟩ op
  exact Option.some.inj (hstep₁.symm.trans hstep) ▸ hv'

theorem step_keys (hv : h.Valid sxhash) (hkeys : ∀ k ∈ h.keys, P k) {op : Op κ ν} (hop : P op.key)
    (hstep : step sxhash h op = some h') : ∀ k ∈ h'.keys, P k := by
  have hcongr : ∀ a b : κ, (a == b) = true → sxhash a = sxhash b := fun a b hab => by
    rw [eq_of_beq hab]
  intro k hk
  obtain ⟨e, he, rfl⟩ := List.mem_map.mp hk
  cases op with
  | assoc key value =>
    obtain ⟨h₁, hassoc, -, hperm⟩ := hamtAssoc_spec hcongr hv key value
    obtain rfl := Option.some.inj (hassoc.symm.trans hstep)
    rcases List.mem_cons.mp (hperm.mem_iff.mp he) with rfl | he
    · exact hop
    · exact hkeys e.1 (List.mem_map_of_mem (List.mem_filter.mp he).1)
  | dissoc key =>
    cases hstep
    have hperm := (hamtDissoc_spec hcongr hv key).2
    exact hkeys e.1 (List.mem_map_of_mem (List.mem_filter.mp (hperm.mem_iff.mp he)).1)

/-- One operation with a key of the set. -/
theorem step_distinguished (hinj : ∀ k k', P k → P k' → sxhash k = sxhash k' → k = k')
    (hd : h.Distinguished sxhash P) {op : Op κ ν} (hop : P op.key)
    (hstep : step sxhash h op = some h') :
    h'.Distinguished sxhash P := by
  have hcongr : ∀ a b : κ, (a == b) = true → sxhash a = sxhash b := fun a b hab => by
    rw [eq_of_beq hab]
  have hu : BucketsUniform sxhash h :=
    fun n hn hash leaves hb => absurd hb (hd.noBucket n hn hash leaves)
  have hclear : clearOfOthers sxhash h op = true := by
    cases op with
    | dissoc key => rfl
    | assoc key value =>
      rw [clearOfOthers, Bool.not_eq_true', rootOnPath]
      cases hr : h.root with
      | none => rfl
      | some n => exact (hd.noBucket n hr).onPath (hd.valid.frozen n hr) ..
  exact distinguished_of_uniform hinj (step_valid hd.valid hstep)
    (step_keys hd.valid hd.keys hop hstep)
    ((step_uniform_iff hcongr hd.valid hu hstep).mpr hclear)

omit [LawfulBEq κ] in
/-- What every operation keeps, a run keeps. -/
theorem run_induction {I : Hamt τ κ ν → Prop}
    (hI : ∀ h h' op, I h → P op.key → step sxhash h op = some h' → I h') {ops : List (Op κ ν)}
    (hstart : I h)
    (hops : ∀ op ∈ ops, P op.key) (hrun : run sxhash h ops = some h') : I h' := by
  induction ops generalizing h with
  | nil =>
    cases hrun
    exact hstart
  | cons op ops ih =>
    rw [run, List.foldlM_cons] at hrun
    obtain ⟨h₁, hstep, hrun⟩ := Option.bind_eq_some_iff.mp hrun
    exact ih (hI _ _ _ hstart (hops op List.mem_cons_self) hstep)
      (fun op' hop' => hops op' (List.mem_cons_of_mem op hop')) hrun

/-- A trie holds only keys that came. -/
theorem run_keys {ops : List (Op κ ν)} (hops : ∀ op ∈ ops, P op.key)
    (hrun : run sxhash {} ops = some h) :
    ∀ k ∈ h.keys, P k :=
  (run_induction (I := fun h : Hamt τ κ ν => h.Valid sxhash ∧ ∀ k ∈ h.keys, P k)
    (fun _ _ _ hI hop hstep => ⟨step_valid hI.1 hstep, step_keys hI.1 hI.2 hop hstep⟩)
    ⟨.empty sxhash, by simp [Hamt.keys]⟩ hops hrun).2

/-- The operations leave no trace in the order of keys with different hashes. -/
theorem run_keys_eq (hinj : ∀ k k', P k → P k' → sxhash k = sxhash k' → k = k')
    {ops ops' : List (Op κ ν)} (hops : ∀ op ∈ ops, P op.key) (hops' : ∀ op ∈ ops', P op.key)
    (hrun : run sxhash {} ops = some h) (hrun' : run sxhash {} ops' = some h')
    (hperm : h.keys.Perm h'.keys) : h.keys = h'.keys := by
  have hstart : ({} : Hamt τ κ ν).Distinguished sxhash P :=
    ⟨.empty sxhash, by simp [Hamt.keys], by simp⟩
  have hstep (h h' : Hamt τ κ ν) (op : Op κ ν) (hd : h.Distinguished sxhash P) (hop : P op.key)
      (hs : step sxhash h op = some h') : h'.Distinguished sxhash P :=
      step_distinguished hinj hd hop hs
  exact hperm.eq_of_pairwise (fun a b _ _ hab hba => absurd hba (before_asymm hab))
    (run_induction hstep hstart hops hrun).before (run_induction hstep hstart hops' hrun').before

/-- Two keys with one hash are listed in the order in which they came. -/
theorem run_pair (k k' : κ) (v v' : ν) (hne : k ≠ k') (hhash : sxhash k = sxhash k') :
    ∃ h : Hamt τ κ ν, run sxhash {} [.assoc k v, .assoc k' v'] = some h ∧ h.keys = [k, k'] := by
  refine ⟨⟨2, some (.collision (sxhash k) [⟨sxhash k, k, v⟩, ⟨sxhash k', k', v'⟩])⟩, ?_, rfl⟩
  simp [run, step, hamtAssoc, assocRoot, assocNode, beq_false_of_ne hne, mergeLeaves, mergeFuel,
    hhash]

end

end Fol.HashTrie
