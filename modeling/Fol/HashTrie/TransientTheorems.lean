/-
Fol.HashTrie.TransientTheorems — the transient trie against the persistent one.

A transient operation follows the same path as the persistent one, and its
specification is the same `Inserts` / `Removes` of one binding. What differs is
which nodes it can pass: `assoc-node!` fails at a collision bucket and at a node
tagged with another token, `dissoc-node!` only at the latter. `onPath` says that
such a node stands on the path of a hash, and each operation is characterised in
both cases.

  §1 Layered tries   — transient nodes stand only below transient nodes.
  §2 Search paths    — `onPath`, `uneditable`, `foreign`.
  §3 Lookup, freeze  — `findNodeTransient_eq_lookup`, `freezeNode_spec`.
  §4 Insertion       — `assocNodeBang_ok`, `assocNodeBang_blocked`.
  §5 Removal         — `dissocNodeBang_ok`, `dissocNodeBang_blocked`.
  §6 Handles         — the same for the operations on a transient.
-/
import Fol.HashTrie.PersistentTheorems
import Fol.HashTrie.Transient

namespace Fol.HashTrie

open Lib

variable {τ κ ν : Type}

/-! ## §1 Layered tries -/

mutual

/-- Below a persistent node everything is persistent, and every transient node
is tagged with a token in `tags`. -/
def Node.Layered (tags : τ → Prop) : Node τ κ ν → Prop
  | .leaf _ => True
  | .collision _ _ => True
  | .node _ children => FrozenList children
  | .tnode token _ children => tags token ∧ LayeredList tags children

def LayeredList (tags : τ → Prop) : List (Node τ κ ν) → Prop
  | [] => True
  | n :: ns => n.Layered tags ∧ LayeredList tags ns

end

variable {tags : τ → Prop}

theorem layeredList_iff {ns : List (Node τ κ ν)} :
    LayeredList tags ns ↔ ∀ n ∈ ns, n.Layered tags := by
  induction ns with
  | nil => simp [LayeredList]
  | cons n ns ih => simp [LayeredList, ih]

@[simp] theorem layered_leaf (l : Leaf κ ν) : (Node.leaf l : Node τ κ ν).Layered tags := trivial
@[simp] theorem layered_collision (h : Nat) (leaves : List (Leaf κ ν)) :
    (Node.collision h leaves : Node τ κ ν).Layered tags := trivial
@[simp] theorem layered_node {b : Nat} {ns : List (Node τ κ ν)} :
    (Node.node b ns).Layered tags ↔ ∀ n ∈ ns, n.Frozen := frozenList_iff
@[simp] theorem layered_tnode {t : τ} {b : Nat} {ns : List (Node τ κ ν)} :
    (Node.tnode t b ns).Layered tags ↔ tags t ∧ ∀ n ∈ ns, n.Layered tags := by
  rw [Node.Layered, layeredList_iff]

theorem Node.Frozen.layered {n : Node τ κ ν} (h : n.Frozen) : n.Layered tags := by
  cases n with
  | leaf l => trivial
  | collision hash leaves => trivial
  | node bitmap children => exact h
  | tnode token bitmap children => exact absurd h frozen_tnode

/-- A property of all children survives replacing one of them. -/
theorem forall_mem_splice {α : Type} {P : α → Prop} {l r : List α} {x y : α}
    (h : ∀ z ∈ l ++ x :: r, P z) (hy : P y) : ∀ z ∈ l ++ y :: r, P z := by
  intro z hz
  rcases List.mem_append.mp hz with hz | hz
  · exact h z (by simp [hz])
  · rcases List.mem_cons.mp hz with rfl | hz
    · exact hy
    · exact h z (by simp [hz])

/-! ## §2 Search paths -/

mutual

/-- Some node on the path of `hash` below `n`, `n` included, satisfies `p`. -/
def onPath (p : Node τ κ ν → Bool) (n : Node τ κ ν) (shift hash : Nat) : Bool :=
  match n with
  | .leaf l => p (.leaf l)
  | .collision h leaves => p (.collision h leaves)
  | .node bitmap children =>
    p (.node bitmap children) ||
      (!(bitmap &&& 1 <<< chunk hash shift == 0) &&
        onPathChild p children (hamtIndex bitmap (1 <<< chunk hash shift)) (shift + bitShift) hash)
  | .tnode t bitmap children =>
    p (.tnode t bitmap children) ||
      (!(bitmap &&& 1 <<< chunk hash shift == 0) &&
        onPathChild p children (hamtIndex bitmap (1 <<< chunk hash shift)) (shift + bitShift) hash)

def onPathChild (p : Node τ κ ν → Bool) (children : List (Node τ κ ν)) (idx shift hash : Nat) :
    Bool :=
  match children, idx with
  | [], _ => false
  | c :: _, 0 => onPath p c shift hash
  | _ :: cs, i + 1 => onPathChild p cs i shift hash

end

theorem onPathChild_at (p : Node τ κ ν → Bool) (l r : List (Node τ κ ν)) (x : Node τ κ ν)
    (shift hash : Nat) :
    onPathChild p (l ++ x :: r) l.length shift hash = onPath p x shift hash := by
  induction l with
  | nil => rfl
  | cons y l ih => exact ih

/-- A node `dissoc-node!` cannot edit under `token`: one claimed under another. -/
def foreign [DecidableEq τ] (token : τ) : Node τ κ ν → Bool
  | .tnode t _ _ => t ≠ token
  | _ => false

/-- A node `assoc-node!` cannot pass: a foreign one, or a collision bucket. -/
def uneditable [DecidableEq τ] (token : τ) : Node τ κ ν → Bool
  | .tnode t _ _ => t ≠ token
  | .collision _ _ => true
  | _ => false

/-- A collision bucket. -/
def bucket : Node τ κ ν → Bool
  | .collision _ _ => true
  | _ => false

theorem onPathChild_congr {p q : Node τ κ ν → Bool} {cs : List (Node τ κ ν)} {hash : Nat}
    (h : ∀ c ∈ cs, ∀ shift, onPath p c shift hash = onPath q c shift hash) (idx shift : Nat) :
    onPathChild p cs idx shift hash = onPathChild q cs idx shift hash := by
  induction cs generalizing idx with
  | nil => rfl
  | cons c cs ih =>
    cases idx with
    | zero => exact h c List.mem_cons_self shift
    | succ i => exact ih (fun d hd => h d (List.mem_cons_of_mem _ hd)) i

/-- Two predicates that agree on the nodes of a layered trie agree on its paths. -/
theorem onPath_congr {p q : Node τ κ ν → Bool} {n : Node τ κ ν} (h : n.Layered tags)
    (hpq : ∀ m : Node τ κ ν, m.Layered tags → p m = q m) (shift hash : Nat) :
    onPath p n shift hash = onPath q n shift hash := by
  induction n generalizing shift with
  | leaf l => exact hpq _ h
  | collision hash leaves => exact hpq _ h
  | node bitmap children ih =>
    rw [onPath, onPath, hpq _ h, onPathChild_congr fun c hc shift =>
      ih c hc (layered_node.mp h c hc).layered shift]
  | tnode t bitmap children ih =>
    rw [onPath, onPath, hpq _ h, onPathChild_congr fun c hc shift =>
      ih c hc ((layered_tnode.mp h).2 c hc) shift]

theorem exists_of_onPathChild {p : Node τ κ ν → Bool} {cs : List (Node τ κ ν)}
    {idx shift hash : Nat} (h : onPathChild p cs idx shift hash = true) :
    ∃ c ∈ cs, onPath p c shift hash = true := by
  induction cs generalizing idx with
  | nil => exact absurd h (by simp [onPathChild])
  | cons c cs ih =>
    cases idx with
    | zero => exact ⟨c, List.mem_cons_self, h⟩
    | succ i =>
      obtain ⟨d, hd, hp⟩ := ih h
      exact ⟨d, List.mem_cons_of_mem _ hd, hp⟩

/-- What stands on a path of a layered trie is layered itself. -/
theorem exists_of_onPath {p : Node τ κ ν → Bool} {n : Node τ κ ν} (h : n.Layered tags)
    {shift hash : Nat} (hp : onPath p n shift hash = true) : ∃ m, m.Layered tags ∧ p m = true := by
  induction n generalizing shift with
  | leaf l => exact ⟨_, h, hp⟩
  | collision hash leaves => exact ⟨_, h, hp⟩
  | node bitmap children ih =>
    rw [onPath, Bool.or_eq_true, Bool.and_eq_true] at hp
    rcases hp with hp | ⟨-, hp⟩
    · exact ⟨_, h, hp⟩
    · obtain ⟨c, hc, hp⟩ := exists_of_onPathChild hp
      exact ih c hc (layered_node.mp h c hc).layered hp
  | tnode t bitmap children ih =>
    rw [onPath, Bool.or_eq_true, Bool.and_eq_true] at hp
    rcases hp with hp | ⟨-, hp⟩
    · exact ⟨_, h, hp⟩
    · obtain ⟨c, hc, hp⟩ := exists_of_onPathChild hp
      exact ih c hc ((layered_tnode.mp h).2 c hc) hp

/-- Where every transient node carries the session's token, only buckets stop
`assoc-node!`. -/
theorem onPath_uneditable_own [DecidableEq τ] {token : τ} {n : Node τ κ ν}
    (h : n.Layered (· = token)) (shift hash : Nat) :
    onPath (uneditable token) n shift hash = onPath bucket n shift hash := by
  refine onPath_congr h (fun m hm => ?_) shift hash
  cases m with
  | tnode t bitmap children => simp [uneditable, bucket, (layered_tnode.mp hm).1]
  | _ => rfl

/-- Where every transient node carries the session's token, nothing stops
`dissoc-node!`. -/
theorem onPath_foreign_own [DecidableEq τ] {token : τ} {n : Node τ κ ν}
    (h : n.Layered (· = token)) (shift hash : Nat) :
    onPath (foreign token) n shift hash = false := by
  rw [← Bool.not_eq_true]
  intro hp
  obtain ⟨m, hm, hp⟩ := exists_of_onPath h hp
  cases m with
  | tnode t bitmap children => simp [foreign, (layered_tnode.mp hm).1] at hp
  | _ => exact absurd hp (by simp [foreign])

/-- `onPath` from a root, which may be `NIL`. -/
def rootOnPath (p : Node τ κ ν → Bool) (root : Option (Node τ κ ν)) (hash : Nat) : Bool :=
  root.any fun n => onPath p n 0 hash

/-! ## §3 Lookup and freezing -/

section Lookup

variable [BEq κ] {sxhash : κ → Nat}

theorem findChildTransient_at (l r : List (Node τ κ ν)) (x : Node τ κ ν) (shift hash : Nat)
    (key : κ) :
    findChildTransient (l ++ x :: r) l.length shift hash key =
      findNodeTransient x shift hash key := by
  induction l with
  | nil => rfl
  | cons y l ih => exact ih

/-- Lookup in a routing node, persistent or not, given lookup in its children. -/
theorem children_lookup (hcongr : ∀ a b : κ, (a == b) = true → sxhash a = sxhash b)
    {bitmap shift pre : Nat} {children : List (Node τ κ ν)} {key : κ} (hpre : pre < 2 ^ shift)
    (hch : List.Forall₂ (ChildWf sxhash shift pre) (slots 32 bitmap) children)
    (hkey : sxhash key % 2 ^ shift = pre)
    (ih : ∀ c ∈ children, ∀ {shift pre : Nat}, pre < 2 ^ shift → c.Wf sxhash shift pre →
      sxhash key % 2 ^ shift = pre →
      findNodeTransient c shift (sxhash key) key = lookup key c.entries) :
    (if bitmap &&& 1 <<< chunk (sxhash key) shift = 0 then none
      else findChildTransient children (hamtIndex bitmap (1 <<< chunk (sxhash key) shift))
        (shift + bitShift) (sxhash key) key) = lookup key (entriesList children) := by
  simp only [and_bit_eq_zero]
  have hc := chunk_lt (sxhash key) shift
  cases hbit : bitmap.testBit (chunk (sxhash key) shift) with
  | false =>
    rw [if_pos rfl]
    obtain ⟨l, r, rfl, -, hl, hr⟩ := children_at_clear hc hbit hch
    symm
    rw [lookup_eq_none_iff, entriesList_append, bound_append,
      not_bound_below hcongr hpre hl, not_bound_above hcongr hpre hr]
    rfl
  | true =>
    rw [if_neg (by decide)]
    obtain ⟨l, x, r, rfl, hlen, hl, hx, hr⟩ := children_at_set hc hbit hch
    rw [hamtIndex, ← hlen, findChildTransient_at,
      ih x (by simp) (extend_lt hpre hc) hx (by rw [mod_extend, hkey]),
      entriesList_append, entriesList_cons, ← List.append_assoc,
      lookup_middle _ (not_bound_below hcongr hpre hl) (not_bound_above hcongr hpre hr)]

/-- Mid-session lookup reads the bindings, whatever the nodes on the path. -/
theorem findNodeTransient_eq_lookup (hcongr : ∀ a b : κ, (a == b) = true → sxhash a = sxhash b)
    {n : Node τ κ ν} {shift pre : Nat} {key : κ} (hpre : pre < 2 ^ shift)
    (h : n.Wf sxhash shift pre) (hkey : sxhash key % 2 ^ shift = pre) :
    findNodeTransient n shift (sxhash key) key = lookup key n.entries := by
  induction n generalizing shift pre with
  | leaf l =>
    rw [findNodeTransient, entries_leaf]
    cases hk : l.key == key with
    | true => rw [lookup_cons_pos [] (show (l.binding.1 == key) = true from hk)]; rfl
    | false => rw [lookup_cons_neg [] (show (l.binding.1 == key) = false from hk)]; rfl
  | collision hash leaves => exact bucket_lookup leaves key
  | node bitmap children ih =>
    exact children_lookup hcongr hpre ((wf_node_iff sxhash).mp h).2 hkey ih
  | tnode token bitmap children ih =>
    exact children_lookup hcongr hpre ((wf_tnode_iff sxhash).mp h).2 hkey ih

end Lookup

theorem freezeList_eq (ns : List (Node τ κ ν)) : freezeList ns = ns.map freezeNode := by
  induction ns with
  | nil => rfl
  | cons n ns ih => simp [freezeList, ih]

/-- Freezing keeps the bindings and leaves no transient node. -/
theorem freezeNode_spec (n : Node τ κ ν) (h : n.Layered tags) :
    (freezeNode n).Frozen ∧ (freezeNode n).entries = n.entries := by
  induction n with
  | leaf l => exact ⟨trivial, rfl⟩
  | collision hash leaves => exact ⟨trivial, rfl⟩
  | node bitmap children _ => exact ⟨h, rfl⟩
  | tnode token bitmap children ih =>
    rw [freezeNode, freezeList_eq]
    have hl := (layered_tnode.mp h).2
    constructor
    · refine frozen_node.mpr fun n hn => ?_
      obtain ⟨c, hc, rfl⟩ := List.mem_map.mp hn
      exact (ih c hc (hl c hc)).1
    · rw [entries_node, entries_tnode]
      clear h
      induction children with
      | nil => rfl
      | cons c cs ihc =>
        rw [List.map_cons, entriesList_cons, entriesList_cons,
          (ih c List.mem_cons_self (hl c List.mem_cons_self)).2,
          ihc (fun d hd => ih d (List.mem_cons_of_mem _ hd))
            fun d hd => hl d (List.mem_cons_of_mem _ hd)]

/-- Freezing keeps the path invariant. -/
theorem freezeNode_wf [BEq κ] {sxhash : κ → Nat} (n : Node τ κ ν) {shift pre : Nat}
    (h : n.Wf sxhash shift pre) : (freezeNode n).Wf sxhash shift pre := by
  induction n generalizing shift pre with
  | leaf l => exact h
  | collision hash leaves => exact h
  | node bitmap children _ => exact h
  | tnode token bitmap children ih =>
    obtain ⟨hb, hch⟩ := (wf_tnode_iff sxhash).mp h
    rw [freezeNode, freezeList_eq, wf_node_iff]
    refine ⟨hb, List.forall₂_map_right_iff.mpr ?_⟩
    generalize slots 32 bitmap = cs at hch ⊢
    clear h
    induction hch with
    | nil => exact .nil
    | cons hx _ ihch =>
      exact .cons (ih _ List.mem_cons_self hx)
        (ihch fun d hd => ih d (List.mem_cons_of_mem _ hd))

/-! ## §4 Insertion -/

section Insertion

variable [DecidableEq τ] [BEq κ] {sxhash : κ → Nat}

theorem assocChildBang_at (l r : List (Node τ κ ν)) (x : Node τ κ ν) (shift : Nat)
    (leaf : Leaf κ ν) (token : τ) :
    assocChildBang (l ++ x :: r) l.length shift leaf token =
      (assocNodeBang x shift leaf token).map fun p => (l ++ p.1 :: r, p.2) := by
  induction l with
  | nil =>
    rw [List.nil_append, List.length_nil, assocChildBang]
    cases assocNodeBang x shift leaf token <;> rfl
  | cons y l ih =>
    rw [List.cons_append, List.length_cons, assocChildBang, ih]
    cases assocNodeBang x shift leaf token <;> rfl

/-- What a successful `assoc-node!` delivers. -/
def AssocOk (tags : τ → Prop) (sxhash : κ → Nat) (shift pre : Nat) (leaf : Leaf κ ν)
    (n : Node τ κ ν) (result : Except Error (Node τ κ ν × Bool)) : Prop :=
  ∃ n' added, result = .ok (n', added) ∧ n'.Wf sxhash shift pre ∧ n'.Layered tags ∧
    Inserts leaf.key leaf.value n.entries n'.entries added

variable [EquivBEq κ] (hcongr : ∀ a b : κ, (a == b) = true → sxhash a = sxhash b)
include hcongr

omit [EquivBEq κ] in
/-- The internal node logic of `assoc-node!`, given the recursive call. -/
theorem assocEditable_ok {bitmap shift pre : Nat} {children : List (Node τ κ ν)} {token : τ}
    {leaf : Leaf κ ν} (htag : tags token) (hpre : pre < 2 ^ shift)
    (hb : bitmap < 2 ^ 32)
    (hch : List.Forall₂ (ChildWf sxhash shift pre) (slots 32 bitmap) children)
    (hlay : ∀ c ∈ children, c.Layered tags) (hleaf : leaf.Wf sxhash shift pre)
    (ih : ∀ c ∈ children, ∀ {shift pre : Nat}, pre < 2 ^ shift → c.Wf sxhash shift pre →
      c.Layered tags → leaf.Wf sxhash shift pre → onPath (uneditable token) c shift leaf.hash =
      false →
      AssocOk tags sxhash shift pre leaf c (assocNodeBang c shift leaf token))
    (hpath : (!(bitmap &&& 1 <<< chunk leaf.hash shift == 0) &&
      onPathChild (uneditable token) children (hamtIndex bitmap (1 <<< chunk leaf.hash shift))
        (shift + bitShift) leaf.hash) = false) :
    AssocOk tags sxhash shift pre leaf (.node bitmap children)
      (assocEditable token shift leaf (bitmap, children)
        (assocChildBang children (hamtIndex bitmap (1 <<< chunk leaf.hash shift))
          (shift + bitShift) leaf token)) := by
  have hc := chunk_lt leaf.hash shift
  have hkey : leaf.hash = sxhash leaf.key := hleaf.1
  simp only [assocEditable, and_bit_eq_zero]
  cases hbit : bitmap.testBit (chunk leaf.hash shift) with
  | false =>
    obtain ⟨l, r, rfl, hlen, hl, hr⟩ := children_at_clear hc hbit hch
    have hnew : ChildWf (τ := τ) sxhash shift pre (chunk leaf.hash shift) (.leaf leaf) :=
      hleaf.extend
    rw [if_pos rfl, hamtIndex, ← hlen, cloneAndInsert_at]
    refine ⟨_, _, rfl, (wf_tnode_iff sxhash).mpr ⟨or_bit_lt hb hc, children_set hc hl hnew hr⟩,
      layered_tnode.mpr ⟨htag, ?_⟩, ?_⟩
    · intro n hn
      rcases List.mem_append.mp hn with hn | hn
      · exact hlay n (by simp [hn])
      · rcases List.mem_cons.mp hn with rfl | hn
        · exact trivial
        · exact hlay n (by simp [hn])
    · rw [hkey] at hl hr
      have hfresh : Inserts leaf.key leaf.value [] [(leaf.key, leaf.value)] true :=
        Inserts.fresh (bound_nil leaf.key)
      simpa [Leaf.binding] using
        hfresh.middle (not_bound_below hcongr hpre hl) (not_bound_above hcongr hpre hr)
  | true =>
    obtain ⟨l, x, r, rfl, hlen, hl, hx, hr⟩ := children_at_set hc hbit hch
    have hzero : (bitmap &&& 1 <<< chunk leaf.hash shift == 0) = false := by
      rw [beq_eq_false_iff_ne]
      intro h0
      rw [(and_bit_eq_zero _ _).mp h0] at hbit
      exact absurd hbit (by decide)
    rw [hzero, hamtIndex, ← hlen, onPathChild_at] at hpath
    obtain ⟨x', added, hx', hwf', hlay', hins⟩ := ih x (by simp) (extend_lt hpre hc) hx
      (hlay x (by simp)) hleaf.extend (by simpa using hpath)
    rw [if_neg (by decide), hamtIndex, ← hlen, assocChildBang_at, hx']
    refine ⟨_, _, rfl, (wf_tnode_iff sxhash).mpr ⟨hb, children_replace hc hbit hl hwf' hr⟩,
      layered_tnode.mpr ⟨htag, forall_mem_splice hlay hlay'⟩, ?_⟩
    rw [hkey] at hl hr
    simpa using hins.middle (not_bound_below hcongr hpre hl) (not_bound_above hcongr hpre hr)

omit [EquivBEq κ] in
/-- With no bucket and no foreign node on the path, `assoc-node!` puts the
binding. -/
theorem assocNodeBang_ok {n : Node τ κ ν} {shift pre : Nat} {leaf : Leaf κ ν} {token : τ}
    (htag : tags token) (hpre : pre < 2 ^ shift) (h : n.Wf sxhash shift pre) (hlay : n.Layered tags)
    (hleaf : leaf.Wf sxhash shift pre)
    (hpath : onPath (uneditable token) n shift leaf.hash = false) :
    AssocOk tags sxhash shift pre leaf n (assocNodeBang n shift leaf token) := by
  induction n generalizing shift pre with
  | leaf l =>
    rw [assocNodeBang]
    cases hk : l.key == leaf.key with
    | true =>
      have hlb : (l.binding.1 == leaf.key) = true := hk
      exact ⟨_, _, rfl, hleaf, trivial, ⟨by simp [put, without, hk, Leaf.binding], by
        simp [bound, hlb]⟩⟩
    | false =>
      have hlb : (l.binding.1 == leaf.key) = false := hk
      obtain ⟨n, hn, hwf, hfz, hperm⟩ := mergeLeaves_ok (τ := τ) hpre h hleaf hk
      rw [if_neg (by decide), mergeInto, hn]
      refine ⟨n, true, rfl, hwf, hfz.layered, ⟨?_, by simp [bound, hlb]⟩⟩
      refine hperm.trans (List.Perm.trans (List.Perm.swap _ _ _) ?_)
      simp [put, without, hk, Leaf.binding]
  | collision hash leaves => exact absurd hpath (by simp [onPath, uneditable])
  | node bitmap children ih =>
    obtain ⟨hb, hch⟩ := (wf_node_iff sxhash).mp h
    have hlay' : ∀ c ∈ children, c.Layered tags := fun c hc => (layered_node.mp hlay c hc).layered
    rw [onPath, Bool.or_eq_false_iff] at hpath
    exact assocEditable_ok hcongr htag hpre hb hch hlay' hleaf ih hpath.2
  | tnode t bitmap children ih =>
    obtain ⟨hb, hch⟩ := (wf_tnode_iff sxhash).mp h
    rw [onPath, Bool.or_eq_false_iff] at hpath
    have ht : t = token := by simpa [uneditable] using hpath.1
    rw [assocNodeBang, ensureEditable, if_pos ht]
    exact assocEditable_ok hcongr htag hpre hb hch (layered_tnode.mp hlay).2 hleaf ih hpath.2

omit [EquivBEq κ] hcongr in
theorem assocEditable_blocked {bitmap shift pre : Nat} {children : List (Node τ κ ν)} {token : τ}
    {leaf : Leaf κ ν}
    (hch : List.Forall₂ (ChildWf sxhash shift pre) (slots 32 bitmap) children)
    (ih : ∀ c ∈ children, ∀ {shift pre : Nat}, c.Wf sxhash shift pre →
      onPath (uneditable token) c shift leaf.hash = true →
      ∃ e, assocNodeBang c shift leaf token = .error e)
    (hpath : (!(bitmap &&& 1 <<< chunk leaf.hash shift == 0) &&
      onPathChild (uneditable token) children (hamtIndex bitmap (1 <<< chunk leaf.hash shift))
        (shift + bitShift) leaf.hash) = true) :
    ∃ e, assocEditable token shift leaf (bitmap, children)
      (assocChildBang children (hamtIndex bitmap (1 <<< chunk leaf.hash shift))
        (shift + bitShift) leaf token) = .error e := by
  have hc := chunk_lt leaf.hash shift
  rw [Bool.and_eq_true, Bool.not_eq_true', beq_eq_false_iff_ne, Ne, and_bit_eq_zero,
    Bool.not_eq_false] at hpath
  obtain ⟨hbit, hpath⟩ := hpath
  obtain ⟨l, x, r, rfl, hlen, hl, hx, hr⟩ := children_at_set hc hbit hch
  rw [hamtIndex, ← hlen, onPathChild_at] at hpath
  obtain ⟨e, he⟩ := ih x (by simp) hx hpath
  refine ⟨e, ?_⟩
  simp only [assocEditable, and_bit_eq_zero, hbit]
  rw [if_neg (by decide), hamtIndex, ← hlen, assocChildBang_at, he]
  rfl

omit [EquivBEq κ] hcongr in
/-- A bucket or a foreign node on the path makes `assoc-node!` signal an error. -/
theorem assocNodeBang_blocked {n : Node τ κ ν} {shift pre : Nat} {leaf : Leaf κ ν} {token : τ}
    (h : n.Wf sxhash shift pre) (hpath : onPath (uneditable token) n shift leaf.hash = true) :
    ∃ e, assocNodeBang n shift leaf token = .error e := by
  induction n generalizing shift pre with
  | leaf l => exact absurd hpath (by simp [onPath, uneditable])
  | collision hash leaves => exact ⟨_, rfl⟩
  | node bitmap children ih =>
    have hp : uneditable token (.node bitmap children : Node τ κ ν) = false := rfl
    rw [onPath, hp, Bool.false_or] at hpath
    exact assocEditable_blocked ((wf_node_iff sxhash).mp h).2 ih hpath
  | tnode t bitmap children ih =>
    rw [assocNodeBang, ensureEditable]
    by_cases ht : t = token
    · rw [if_pos ht]
      have hp : uneditable token (.tnode t bitmap children : Node τ κ ν) = false := by
        simp [uneditable, ht]
      rw [onPath, hp, Bool.false_or] at hpath
      exact assocEditable_blocked ((wf_tnode_iff sxhash).mp h).2 ih hpath
    · rw [if_neg ht]
      exact ⟨_, rfl⟩

end Insertion

/-! ## §5 Removal -/

section Removal

variable [DecidableEq τ] [BEq κ] {sxhash : κ → Nat}

theorem dissocChildBang_at (l r : List (Node τ κ ν)) (x : Node τ κ ν) (shift hash : Nat) (key : κ)
    (token : τ) :
    dissocChildBang (l ++ x :: r) l.length shift hash key token =
      dissocNodeBang x shift hash key token := by
  induction l with
  | nil => rfl
  | cons y l ih => exact ih

/-- What a successful `dissoc-node!` delivers. -/
def DissocOk (tags : τ → Prop) (sxhash : κ → Nat) (shift pre : Nat) (key : κ) (n : Node τ κ ν)
    (result : Except Error (Option (Node τ κ ν) × Bool)) : Prop :=
  ∃ n' removed, result = .ok (n', removed) ∧
    (∀ m ∈ n', m.Wf sxhash shift pre ∧ m.Layered tags) ∧
    Removes key n.entries (rootEntries n') removed

variable [EquivBEq κ] (hcongr : ∀ a b : κ, (a == b) = true → sxhash a = sxhash b)
include hcongr

omit [EquivBEq κ] in
/-- The internal node logic of `dissoc-node!`, given the recursive call. -/
theorem dissocEditable_ok {bitmap shift pre : Nat} {children : List (Node τ κ ν)} {token : τ}
    {key : κ} (htag : tags token) (hpre : pre < 2 ^ shift)
    (hb : bitmap < 2 ^ 32)
    (hch : List.Forall₂ (ChildWf sxhash shift pre) (slots 32 bitmap) children)
    (hlay : ∀ c ∈ children, c.Layered tags) (hkey : sxhash key % 2 ^ shift = pre)
    (ih : ∀ c ∈ children, ∀ {shift pre : Nat}, pre < 2 ^ shift → c.Wf sxhash shift pre →
      c.Layered tags → sxhash key % 2 ^ shift = pre →
      onPath (foreign token) c shift (sxhash key) = false →
      DissocOk tags sxhash shift pre key c (dissocNodeBang c shift (sxhash key) key token))
    (hpath : (!(bitmap &&& 1 <<< chunk (sxhash key) shift == 0) &&
      onPathChild (foreign token) children (hamtIndex bitmap (1 <<< chunk (sxhash key) shift))
        (shift + bitShift) (sxhash key)) = false) :
    DissocOk tags sxhash shift pre key (.node bitmap children)
      (dissocEditable token shift (sxhash key) (bitmap, children)
        (dissocChildBang children (hamtIndex bitmap (1 <<< chunk (sxhash key) shift))
          (shift + bitShift) (sxhash key) key token)) := by
  have hc := chunk_lt (sxhash key) shift
  have claimed : (Node.tnode token bitmap children).Wf sxhash shift pre ∧
      (Node.tnode token bitmap children).Layered tags :=
    ⟨(wf_tnode_iff sxhash).mpr ⟨hb, hch⟩, layered_tnode.mpr ⟨htag, hlay⟩⟩
  simp only [dissocEditable, and_bit_eq_zero]
  cases hbit : bitmap.testBit (chunk (sxhash key) shift) with
  | false =>
    obtain ⟨l, r, rfl, -, hl, hr⟩ := children_at_clear hc hbit hch
    rw [if_pos rfl]
    refine ⟨_, _, rfl, by simpa using claimed, ?_⟩
    exact Removes.absent (by
      rw [entries_node, entriesList_append, bound_append, not_bound_below hcongr hpre hl,
        not_bound_above hcongr hpre hr]
      rfl)
  | true =>
    obtain ⟨l, x, r, rfl, hlen, hl, hx, hr⟩ := children_at_set hc hbit hch
    have hzero : (bitmap &&& 1 <<< chunk (sxhash key) shift == 0) = false := by
      rw [beq_eq_false_iff_ne]
      intro h0
      rw [(and_bit_eq_zero _ _).mp h0] at hbit
      exact absurd hbit (by decide)
    rw [hzero, hamtIndex, ← hlen, onPathChild_at] at hpath
    obtain ⟨x', removed, hx', hok, hrem⟩ := ih x (by simp) (extend_lt hpre hc) hx
      (hlay x (by simp)) (by rw [mod_extend, hkey]) (by simpa using hpath)
    have hmid := hrem.middle (not_bound_below hcongr hpre hl) (not_bound_above hcongr hpre hr)
    rw [if_neg (by decide), hamtIndex, ← hlen, dissocChildBang_at, hx']
    cases removed with
    | false =>
      refine ⟨_, _, rfl, by simpa using claimed, Removes.absent ?_⟩
      rw [entries_node, entriesList_append, entriesList_cons, ← List.append_assoc]
      exact hmid.removed.symm
    | true =>
      cases x' with
      | none =>
        have hrest := children_unset hc hl hr
        simp only [cloneAndRemove_at]
        by_cases h0 : logandc2 bitmap (1 <<< chunk (sxhash key) shift) = 0
        · -- the last child went: the node goes with it
          rw [h0, slots_zero] at hrest
          obtain ⟨rfl, rfl⟩ := List.append_eq_nil_iff.mp (List.forall₂_nil_left_iff.mp hrest)
          refine ⟨none, true, by simp only [h0]; rfl, by simp, by simpa using hmid⟩
        · refine ⟨some (.tnode token (logandc2 bitmap (1 <<< chunk (sxhash key) shift)) (l ++ r)),
            true, by simp only [bind, Except.bind, h0]; rfl, ?_, by simpa using hmid⟩
          intro m hm
          cases hm
          refine ⟨(wf_tnode_iff sxhash).mpr ⟨logandc2_lt hb, hrest⟩, layered_tnode.mpr ⟨htag, ?_⟩⟩
          intro n hn
          exact hlay n (by rcases List.mem_append.mp hn with hn | hn <;> simp [hn])
      | some x' =>
        obtain ⟨hxwf, hxlay⟩ := hok x' rfl
        simp only [set_at]
        refine ⟨_, _, rfl, ?_, by simpa using hmid⟩
        intro m hm
        cases hm
        exact ⟨(wf_tnode_iff sxhash).mpr ⟨hb, children_replace hc hbit hl hxwf hr⟩,
          layered_tnode.mpr ⟨htag, forall_mem_splice hlay hxlay⟩⟩

/-- With no foreign node on the path, `dissoc-node!` drops the key. -/
theorem dissocNodeBang_ok {n : Node τ κ ν} {shift pre : Nat} {key : κ} {token : τ}
    (htag : tags token) (hpre : pre < 2 ^ shift) (h : n.Wf sxhash shift pre) (hlay : n.Layered tags)
    (hkey : sxhash key % 2 ^ shift = pre)
    (hpath : onPath (foreign token) n shift (sxhash key) = false) :
    DissocOk tags sxhash shift pre key n (dissocNodeBang n shift (sxhash key) key token) := by
  induction n generalizing shift pre with
  | leaf l =>
    obtain ⟨n', removed, heq, hok, hrem⟩ := dissocNode_spec hcongr hpre h trivial hkey
    rw [dissocNode] at heq
    refine ⟨n', removed, ?_, fun m hm => ⟨(hok m hm).1, (hok m hm).2.layered⟩, hrem⟩
    rw [dissocNodeBang, ← heq]
    cases l.key == key <;> rfl
  | collision hash leaves =>
    obtain ⟨n', removed, heq, hok, hrem⟩ := dissocNode_spec hcongr hpre h trivial hkey
    rw [dissocNode] at heq
    refine ⟨n', removed, ?_, fun m hm => ⟨(hok m hm).1, (hok m hm).2.layered⟩, hrem⟩
    rw [dissocNodeBang, ← heq]
    cases leaves.findIdx? fun l => l.key == key <;> rfl
  | node bitmap children ih =>
    obtain ⟨hb, hch⟩ := (wf_node_iff sxhash).mp h
    have hlay' : ∀ c ∈ children, c.Layered tags := fun c hc => (layered_node.mp hlay c hc).layered
    rw [onPath, Bool.or_eq_false_iff] at hpath
    exact dissocEditable_ok hcongr htag hpre hb hch hlay' hkey ih hpath.2
  | tnode t bitmap children ih =>
    obtain ⟨hb, hch⟩ := (wf_tnode_iff sxhash).mp h
    rw [onPath, Bool.or_eq_false_iff] at hpath
    have ht : t = token := by simpa [foreign] using hpath.1
    rw [dissocNodeBang, ensureEditable, if_pos ht]
    exact dissocEditable_ok hcongr htag hpre hb hch (layered_tnode.mp hlay).2 hkey ih hpath.2

omit [EquivBEq κ] hcongr in
theorem dissocEditable_blocked {bitmap shift pre : Nat} {children : List (Node τ κ ν)} {token : τ}
    {key : κ}
    (hch : List.Forall₂ (ChildWf sxhash shift pre) (slots 32 bitmap) children)
    (ih : ∀ c ∈ children, ∀ {shift pre : Nat}, c.Wf sxhash shift pre →
      onPath (foreign token) c shift (sxhash key) = true →
      ∃ e, dissocNodeBang c shift (sxhash key) key token = .error e)
    (hpath : (!(bitmap &&& 1 <<< chunk (sxhash key) shift == 0) &&
      onPathChild (foreign token) children (hamtIndex bitmap (1 <<< chunk (sxhash key) shift))
        (shift + bitShift) (sxhash key)) = true) :
    ∃ e, dissocEditable token shift (sxhash key) (bitmap, children)
      (dissocChildBang children (hamtIndex bitmap (1 <<< chunk (sxhash key) shift))
        (shift + bitShift) (sxhash key) key token) = .error e := by
  have hc := chunk_lt (sxhash key) shift
  rw [Bool.and_eq_true, Bool.not_eq_true', beq_eq_false_iff_ne, Ne, and_bit_eq_zero,
    Bool.not_eq_false] at hpath
  obtain ⟨hbit, hpath⟩ := hpath
  obtain ⟨l, x, r, rfl, hlen, hl, hx, hr⟩ := children_at_set hc hbit hch
  rw [hamtIndex, ← hlen, onPathChild_at] at hpath
  obtain ⟨e, he⟩ := ih x (by simp) hx hpath
  refine ⟨e, ?_⟩
  simp only [dissocEditable, and_bit_eq_zero, hbit]
  rw [if_neg (by decide), hamtIndex, ← hlen, dissocChildBang_at, he]
  rfl

omit [EquivBEq κ] hcongr in
/-- A foreign node on the path makes `dissoc-node!` signal an error. -/
theorem dissocNodeBang_blocked {n : Node τ κ ν} {shift pre : Nat} {key : κ} {token : τ}
    (h : n.Wf sxhash shift pre) (hpath : onPath (foreign token) n shift (sxhash key) = true) :
    ∃ e, dissocNodeBang n shift (sxhash key) key token = .error e := by
  induction n generalizing shift pre with
  | leaf l => exact absurd hpath (by simp [onPath, foreign])
  | collision hash leaves => exact absurd hpath (by simp [onPath, foreign])
  | node bitmap children ih =>
    have hp : foreign token (.node bitmap children : Node τ κ ν) = false := rfl
    rw [onPath, hp, Bool.false_or] at hpath
    exact dissocEditable_blocked ((wf_node_iff sxhash).mp h).2 ih hpath
  | tnode t bitmap children ih =>
    rw [dissocNodeBang, ensureEditable]
    by_cases ht : t = token
    · rw [if_pos ht]
      have hp : foreign token (.tnode t bitmap children : Node τ κ ν) = false := by
        simp [foreign, ht]
      rw [onPath, hp, Bool.false_or] at hpath
      exact dissocEditable_blocked ((wf_tnode_iff sxhash).mp h).2 ih hpath
    · rw [if_neg ht]
      exact ⟨_, rfl⟩

end Removal

/-! ## §6 Handles -/

/-- What holds of every transient during a session: the trie satisfies the path
invariant and is layered, and the count field is the number of bindings. -/
structure TransientHamt.Valid [BEq κ] (tags : τ → Prop) (sxhash : κ → Nat)
    (th : TransientHamt τ κ ν) : Prop where
  wf : ∀ n ∈ th.root, n.Wf sxhash 0 0
  layered : ∀ n ∈ th.root, n.Layered tags
  count : th.count = (rootEntries th.root).length

section Handles

variable [DecidableEq τ] [BEq κ] [EquivBEq κ] {sxhash : κ → Nat}

omit [DecidableEq τ] [EquivBEq κ] in
theorem apiTransientHamt_valid {h : Hamt τ κ ν} (hv : h.Valid sxhash) (thread : τ) :
    (apiTransientHamt thread h).Valid tags sxhash :=
  ⟨hv.wf, fun n hn => (hv.frozen n hn).layered, hv.count⟩

omit [EquivBEq κ] in
/-- `persistent!` by the owner freezes the bindings and takes the token away. -/
theorem hamtPersistentBang_ok {th : TransientHamt τ κ ν} (hv : th.Valid tags sxhash) {thread : τ}
    (htok : th.token = some thread) :
    ∃ h, hamtPersistentBang thread th = .ok ({ th with token := none }, h) ∧ h.Valid sxhash ∧
      rootEntries h.root = rootEntries th.root := by
  have hroot : rootEntries (th.root.map freezeNode) = rootEntries th.root := by
    cases hr : th.root with
    | none => rfl
    | some n => exact (freezeNode_spec n (hv.layered n hr)).2
  refine ⟨_, by rw [hamtPersistentBang, htok]; exact if_pos rfl, ⟨?_, ?_, ?_⟩, hroot⟩
  · intro m hm
    obtain ⟨n, hn, rfl⟩ := Option.map_eq_some_iff.mp hm
    exact freezeNode_wf n (hv.wf n hn)
  · intro m hm
    obtain ⟨n, hn, rfl⟩ := Option.map_eq_some_iff.mp hm
    exact (freezeNode_spec n (hv.layered n hn)).1
  · exact hv.count.trans (congrArg List.length hroot).symm

variable (hcongr : ∀ a b : κ, (a == b) = true → sxhash a = sxhash b)
include hcongr

omit [DecidableEq τ] in
theorem TransientHamt.Valid.distinct {th : TransientHamt τ κ ν} (hv : th.Valid tags sxhash) :
    Distinct (rootEntries th.root) := by
  cases hr : th.root with
  | none => exact distinct_nil
  | some n => exact (hv.wf n hr).distinct hcongr (by simp)

omit [DecidableEq τ] [EquivBEq κ] in
theorem hamtGetTransient_eq_lookup {th : TransientHamt τ κ ν} (hv : th.Valid tags sxhash)
    (key : κ) : hamtGetTransient sxhash th key = lookup key (rootEntries th.root) := by
  rw [hamtGetTransient]
  cases hr : th.root with
  | none => rfl
  | some n => exact findNodeTransient_eq_lookup hcongr (by simp) (hv.wf n hr) (Nat.mod_one _)

omit [EquivBEq κ] in
theorem assocRootBang_ok {root : Option (Node τ κ ν)} {token : τ} {key : κ} (value : ν)
    (htag : tags token) (hwf : ∀ n ∈ root, n.Wf sxhash 0 0) (hlay : ∀ n ∈ root, n.Layered tags)
    (hpath : rootOnPath (uneditable token) root (sxhash key) = false) :
    ∃ n added, assocRootBang root ⟨sxhash key, key, value⟩ token = .ok (n, added) ∧
      n.Wf sxhash 0 0 ∧ n.Layered tags ∧ Inserts key value (rootEntries root) n.entries added := by
  cases root with
  | none => exact ⟨_, _, rfl, ⟨rfl, Nat.mod_one _⟩, trivial, Inserts.fresh (bound_nil key)⟩
  | some n =>
    exact assocNodeBang_ok hcongr htag (by simp) (hwf n rfl) (hlay n rfl) ⟨rfl, Nat.mod_one _⟩ hpath

omit [EquivBEq κ] hcongr in
theorem assocRootBang_blocked {root : Option (Node τ κ ν)} {token : τ} {key : κ} (value : ν)
    (hwf : ∀ n ∈ root, n.Wf sxhash 0 0)
    (hpath : rootOnPath (uneditable token) root (sxhash key) = true) :
    ∃ e, assocRootBang root ⟨sxhash key, key, value⟩ token = .error e := by
  cases root with
  | none => exact absurd hpath (by simp [rootOnPath])
  | some n => exact assocNodeBang_blocked (hwf n rfl) hpath

/-- `assoc!` by the owner, past neither a bucket nor a foreign node. -/
theorem hamtAssocBang_ok {th : TransientHamt τ κ ν} (hv : th.Valid tags sxhash) {thread : τ}
    (htok : th.token = some thread) (htag : tags thread) (key : κ) (value : ν)
    (hpath : rootOnPath (uneditable thread) th.root (sxhash key) = false) :
    ∃ th', hamtAssocBang sxhash thread th key value = .ok th' ∧ th'.Valid tags sxhash ∧
      th'.token = th.token ∧
      (rootEntries th'.root).Perm (put key value (rootEntries th.root)) := by
  obtain ⟨n, added, hn, hwf, hlay, hins⟩ :=
    assocRootBang_ok hcongr value htag hv.wf hv.layered hpath
  refine ⟨{ th with root := some n, count := if added then th.count + 1 else th.count },
    by rw [hamtAssocBang, htok]; simp only [if_pos]; rw [hn]; rfl,
    ⟨by simpa using hwf, by simpa using hlay, ?_⟩, rfl, hins.perm⟩
  rw [rootEntries_some, hins.perm.length_eq, length_put (hv.distinct hcongr),
    hins.added, ← hv.count]
  cases bound key (rootEntries th.root) <;> rfl

omit [EquivBEq κ] hcongr in
theorem hamtAssocBang_blocked {th : TransientHamt τ κ ν} (hv : th.Valid tags sxhash) {thread : τ}
    (htok : th.token = some thread) (key : κ) (value : ν)
    (hpath : rootOnPath (uneditable thread) th.root (sxhash key) = true) :
    ∃ e, hamtAssocBang sxhash thread th key value = .error e := by
  obtain ⟨e, he⟩ := assocRootBang_blocked value hv.wf hpath
  exact ⟨e, by rw [hamtAssocBang, htok]; simp only [if_pos]; rw [he]; rfl⟩

/-- `dissoc!` with a live token, past no foreign node. The calling thread does
not matter. -/
theorem hamtDissocBang_ok {th : TransientHamt τ κ ν} (hv : th.Valid tags sxhash) {token : τ}
    (htok : th.token = some token) (htag : tags token) (thread : τ) (key : κ)
    (hpath : rootOnPath (foreign token) th.root (sxhash key) = false) :
    ∃ th', hamtDissocBang sxhash thread th key = .ok th' ∧ th'.Valid tags sxhash ∧
      th'.token = th.token ∧
      (rootEntries th'.root).Perm (without key (rootEntries th.root)) := by
  rw [hamtDissocBang, htok]
  cases hr : th.root with
  | none =>
    refine ⟨th, rfl, hv, htok, ?_⟩
    rw [hr]
    simp
  | some n =>
    rw [hr] at hpath
    obtain ⟨n', removed, hn, hok, hrem⟩ := dissocNodeBang_ok hcongr htag (by simp)
      (hv.wf n hr) (hv.layered n hr) (Nat.mod_one _) hpath
    refine ⟨{ th with root := n', count := if removed then th.count - 1 else th.count },
      by simp only [hn]; rw [← htok]; rfl,
      ⟨fun m hm => (hok m hm).1, fun m hm => (hok m hm).2, ?_⟩, htok, hrem.perm⟩
    have hlen := length_without ((hv.wf n hr).distinct hcongr (by simp)) key
    have hcount := hv.count
    rw [hr, rootEntries_some] at hcount
    rw [← hrem.removed] at hlen
    simp only [hrem.perm.length_eq, hcount]
    cases removed with
    | false => exact hlen.symm
    | true => exact (Nat.eq_sub_of_add_eq hlen).symm

omit [EquivBEq κ] hcongr in
theorem hamtDissocBang_blocked {th : TransientHamt τ κ ν} (hv : th.Valid tags sxhash) {token : τ}
    (htok : th.token = some token) (thread : τ) (key : κ)
    (hpath : rootOnPath (foreign token) th.root (sxhash key) = true) :
    ∃ e, hamtDissocBang sxhash thread th key = .error e := by
  rw [hamtDissocBang, htok]
  cases hr : th.root with
  | none => exact absurd hpath (by simp [rootOnPath, hr])
  | some n =>
    rw [hr] at hpath
    obtain ⟨e, he⟩ := dissocNodeBang_blocked (hv.wf n hr) hpath
    exact ⟨e, by simp only [he]; rfl⟩

end Handles

end Fol.HashTrie
