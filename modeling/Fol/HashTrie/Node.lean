/-
Fol.HashTrie.Node — the hash array mapped trie of `collection-primitives.lisp`:
its node structures and the persistent operations.

`Node` is the union of the four structures a trie slot can hold: `hamt-leaf`,
`hamt-collision`, `hamt-node` and the token-tagged `hamt-transient-node`. The
source dispatches on the structure type, and so does every function here; `NIL`
is `none : Option Node` and only ever stands for an empty root or a removed
child.

Keys are compared with `EQUAL`, which is `==`; `sxhash` is any function to the
non-negative fixnums. Arrays are lists, and a child array index out of range
(which the source would read with `safety 0`) has no result.
-/
import Fol.Lib.SparseArray
import Fol.Primitives

namespace Fol.HashTrie

open Lib

/-! ## Core types -/

/-- `hamt-leaf`. -/
structure Leaf (κ ν : Type) where
  hash : Nat
  key : κ
  value : ν
deriving DecidableEq

/-- A trie slot: `hamt-leaf`, `hamt-collision`, `hamt-node` or
`hamt-transient-node`. -/
inductive Node (τ κ ν : Type) where
  | leaf (l : Leaf κ ν)
  | collision (hash : Nat) (leaves : List (Leaf κ ν))
  | node (bitmap : Nat) (children : List (Node τ κ ν))
  | tnode (token : τ) (bitmap : Nat) (children : List (Node τ κ ν))

/-- `hamt`. -/
structure Hamt (τ κ ν : Type) where
  count : Nat := 0
  root : Option (Node τ κ ν) := none

variable {τ κ ν : Type}

/-! ## Array and bitmask helpers -/

/-- The five hash bits that route at depth `shift`. -/
def chunk (hash shift : Nat) : Nat := (hash >>> shift) &&& bitMask

/-- `hamt-index`. -/
def hamtIndex (bitmap bit : Nat) : Nat := logcount (bitmap &&& (bit - 1))

/-- `clone-and-insert` (and `insert-destructive`, which builds the same array). -/
def cloneAndInsert {α : Type} (arr : List α) (idx : Nat) (item : α) : List α :=
  arr.take idx ++ item :: arr.drop idx

/-- `clone-and-remove` (and `remove-destructive`). -/
def cloneAndRemove {α : Type} (arr : List α) (idx : Nat) : List α := arr.eraseIdx idx

/-- `merge-leaves`. The recursion ends when the hashes diverge; `fuel` bounds its
depth, and running out of it stands for a recursion that never ends. -/
def mergeLeaves : Nat → Nat → Leaf κ ν → Leaf κ ν → Option (Node τ κ ν)
  | 0, _, _, _ => none
  | fuel + 1, shift, leaf1, leaf2 =>
    if leaf1.hash = leaf2.hash then
      some (.collision leaf1.hash [leaf1, leaf2])
    else
      let chunk1 := chunk leaf1.hash shift
      let chunk2 := chunk leaf2.hash shift
      if chunk1 = chunk2 then
        (mergeLeaves fuel (shift + bitShift) leaf1 leaf2).map fun child =>
          .node (1 <<< chunk1) [child]
      else
        some (.node (1 <<< chunk1 ||| 1 <<< chunk2)
          (if chunk1 < chunk2 then [.leaf leaf1, .leaf leaf2] else [.leaf leaf2, .leaf leaf1]))

/-- Fuel that covers every pair of distinct hashes (`mergeLeaves_spec`). -/
def mergeFuel (leaf1 leaf2 : Leaf κ ν) : Nat := leaf1.hash + leaf2.hash + 1

section Operations

variable [BEq κ]

/-! ## Lookup -/

mutual

/-- `find-node`. The result is the value when FOUND-P is true. -/
def findNode (n : Node τ κ ν) (shift hash : Nat) (key : κ) : Option ν :=
  match n with
  | .leaf l => if l.key == key then some l.value else none
  | .collision _ leaves => (leaves.find? fun l => l.key == key).map (·.value)
  | .node bitmap children =>
    let bit := 1 <<< chunk hash shift
    if bitmap &&& bit = 0 then none
    else findChild children (hamtIndex bitmap bit) (shift + bitShift) hash key
  | .tnode _ _ _ => none

/-- `find-node` on `(svref children idx)`. -/
def findChild (children : List (Node τ κ ν)) (idx shift hash : Nat) (key : κ) : Option ν :=
  match children, idx with
  | [], _ => none
  | c :: _, 0 => findNode c shift hash key
  | _ :: cs, i + 1 => findChild cs i shift hash key

end

/-- `hamt-get`. -/
def hamtGet (sxhash : κ → Nat) (h : Hamt τ κ ν) (key : κ) : Option ν :=
  h.root.bind fun root => findNode root 0 (sxhash key) key

/-! ## Insertion -/

mutual

/-- `assoc-node` on a node; the pair is (NEW-NODE, ADDED-P). The `cond` of the
source has no clause for a transient node, and no persistent trie holds one. -/
def assocNode (n : Node τ κ ν) (shift hash : Nat) (key : κ) (value : ν) :
    Option (Node τ κ ν × Bool) :=
  match n with
  | .leaf l =>
    if l.key == key then some (.leaf ⟨hash, key, value⟩, false)
    else (mergeLeaves (mergeFuel l ⟨hash, key, value⟩) shift l ⟨hash, key, value⟩).map (·, true)
  | .collision _ leaves =>
    match leaves.findIdx? fun l => l.key == key with
    | some existing => some (.collision hash (leaves.set existing ⟨hash, key, value⟩), false)
    | none => some (.collision hash (⟨hash, key, value⟩ :: leaves), true)
  | .node bitmap children =>
    let bit := 1 <<< chunk hash shift
    let idx := hamtIndex bitmap bit
    if bitmap &&& bit = 0 then
      some (.node (bitmap ||| bit) (cloneAndInsert children idx (.leaf ⟨hash, key, value⟩)), true)
    else
      (assocChild children idx (shift + bitShift) hash key value).map fun r =>
        (.node bitmap r.1, r.2)
  | .tnode _ _ _ => none

/-- `assoc-node` on `(svref children idx)`, with the child array updated by
`clone-and-update`. -/
def assocChild (children : List (Node τ κ ν)) (idx shift hash : Nat) (key : κ) (value : ν) :
    Option (List (Node τ κ ν) × Bool) :=
  match children, idx with
  | [], _ => none
  | c :: cs, 0 => (assocNode c shift hash key value).map fun r => (r.1 :: cs, r.2)
  | c :: cs, i + 1 => (assocChild cs i shift hash key value).map fun r => (c :: r.1, r.2)

end

/-- `assoc-node` on a root, which may be `NIL`. -/
def assocRoot (root : Option (Node τ κ ν)) (hash : Nat) (key : κ) (value : ν) :
    Option (Node τ κ ν × Bool) :=
  match root with
  | none => some (.leaf ⟨hash, key, value⟩, true)
  | some n => assocNode n 0 hash key value

/-- `hamt-assoc`. -/
def hamtAssoc (sxhash : κ → Nat) (h : Hamt τ κ ν) (key : κ) (value : ν) : Option (Hamt τ κ ν) :=
  (assocRoot h.root (sxhash key) key value).map fun r =>
    { count := if r.2 then h.count + 1 else h.count, root := some r.1 }

/-! ## Removal -/

/-- What `dissoc-node` builds for a collision bucket once `existing` is removed. -/
def shrinkBucket (hash : Nat) (newLeaves : List (Leaf κ ν)) : Node τ κ ν :=
  match newLeaves with
  | [l] => .leaf l
  | _ => .collision hash newLeaves

/-- What `dissoc-node` builds for a routing node that lost a child. A lone leaf
left over replaces the node (path compression). -/
def shrinkNode (newBitmap : Nat) (newChildren : List (Node τ κ ν)) : Option (Node τ κ ν) :=
  if newBitmap = 0 then none
  else match newChildren with
    | [.leaf l] => some (.leaf l)
    | _ => some (.node newBitmap newChildren)

mutual

/-- `dissoc-node`; the pair is (NEW-NODE, REMOVED-P). -/
def dissocNode (n : Node τ κ ν) (shift hash : Nat) (key : κ) : Option (Node τ κ ν) × Bool :=
  match n with
  | .leaf l => if l.key == key then (none, true) else (some (.leaf l), false)
  | .collision h leaves =>
    match leaves.findIdx? fun l => l.key == key with
    | some existing => (some (shrinkBucket hash (leaves.eraseIdx existing)), true)
    | none => (some (.collision h leaves), false)
  | .node bitmap children =>
    let bit := 1 <<< chunk hash shift
    if bitmap &&& bit = 0 then (some (.node bitmap children), false)
    else
      let idx := hamtIndex bitmap bit
      match dissocChild children idx (shift + bitShift) hash key with
      | (_, false) => (some (.node bitmap children), false)
      | (none, true) => (shrinkNode (logandc2 bitmap bit) (cloneAndRemove children idx), true)
      | (some newChild, true) => (some (.node bitmap (children.set idx newChild)), true)
  | .tnode _ _ _ => (none, false)

/-- `dissoc-node` on `(svref children idx)`. -/
def dissocChild (children : List (Node τ κ ν)) (idx shift hash : Nat) (key : κ) :
    Option (Node τ κ ν) × Bool :=
  match children, idx with
  | [], _ => (none, false)
  | c :: _, 0 => dissocNode c shift hash key
  | _ :: cs, i + 1 => dissocChild cs i shift hash key

end

/-- `hamt-dissoc`. -/
def hamtDissoc (sxhash : κ → Nat) (h : Hamt τ κ ν) (key : κ) : Hamt τ κ ν :=
  match h.root with
  | none => h
  | some root =>
    match dissocNode root 0 (sxhash key) key with
    | (newRoot, true) => { count := h.count - 1, root := newRoot }
    | (_, false) => h

end Operations

/-! ## Iteration -/

mutual

/-- Number of nodes, the measure of one iterator call. -/
def Node.weight : Node τ κ ν → Nat
  | .leaf _ => 1
  | .collision _ leaves => leaves.length + 1
  | .node _ children => weightList children + 1
  | .tnode _ _ children => weightList children + 1

def weightList : List (Node τ κ ν) → Nat
  | [] => 0
  | n :: ns => n.weight + weightList ns

end

theorem weightList_append (l r : List (Node τ κ ν)) :
    weightList (l ++ r) = weightList l + weightList r := by
  induction l with
  | nil => simp [weightList]
  | cons n ns ih => simp [weightList, ih, Nat.add_assoc]

theorem weightList_leaves (leaves : List (Leaf κ ν)) :
    weightList (τ := τ) (leaves.map .leaf) = leaves.length := by
  induction leaves with
  | nil => rfl
  | cons l ls ih => simp [weightList, Node.weight, ih, Nat.add_comm]

/-- One call of the closure `hamt-iterator` returns: the yielded pair (`none` is
`:eof`) and the stack it leaves. -/
def iteratorNext (stack : List (Node τ κ ν)) : Option (κ × ν) × List (Node τ κ ν) :=
  match stack with
  | [] => (none, [])
  | .leaf l :: stack => (some (l.key, l.value), stack)
  | .collision _ leaves :: stack => iteratorNext (leaves.map .leaf ++ stack)
  | .node _ children :: stack => iteratorNext (children ++ stack)
  -- no clause of the source's `cond` applies: the node is dropped
  | .tnode _ _ _ :: stack => iteratorNext stack
termination_by weightList stack
decreasing_by all_goals simp [weightList, weightList_append, weightList_leaves, Node.weight]

/-- The stack `hamt-iterator` starts from. -/
def hamtIterator (h : Hamt τ κ ν) : List (Node τ κ ν) := h.root.toList

/-- The results of the first `n` calls of the iterator closure. -/
def iteratorCalls : Nat → List (Node τ κ ν) → List (Option (κ × ν))
  | 0, _ => []
  | n + 1, stack => (iteratorNext stack).1 :: iteratorCalls n (iteratorNext stack).2

end Fol.HashTrie
