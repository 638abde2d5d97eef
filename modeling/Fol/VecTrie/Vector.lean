/-
Fol.VecTrie.Vector — the persistent vector `%vec-t` of `collection-primitives.lisp`,
as `define-pvec-trie` expands it for element type `t`.

The elements after the last full block of 32 sit in a tail array; the full
blocks are the leaves of a tree of branching factor 32, whose depth is the
`shift` field. Leaves and inner nodes are both simple vectors in the source and
told apart by the level only; here they are two constructors of `Slot`.

`fill` is whatever a fresh array holds before its cells are set (NIL for the
arrays made with `:initial-element`, anything for the others).
-/
import Fol.Primitives
import Mathlib.Data.List.Basic

namespace Fol.VecTrie

variable {τ α : Type}

/-! ## Core types -/

/-- The contents of a tree cell. `unset` is a cell of a `(make-array 32)` that was
not assigned. -/
inductive Slot (α : Type) where
  | nil
  | unset
  | leaf (elems : List α)
  | node (slots : List (Slot α))

/-- `(length node)`. -/
def Slot.length : Slot α → Nat
  | .leaf elems => elems.length
  | .node slots => slots.length
  | _ => 0

/-- `%vec-t`. -/
structure VecT (α : Type) where
  count : Nat := 0
  shift : Nat := 0
  root : Slot α := .node []
  tail : List α := []

/-- `transient-%vec-t`; the token is the owning thread, `none` after
`persistent!`. -/
structure TransientVecT (τ α : Type) where
  count : Nat
  shift : Nat
  root : Slot α
  tail : List α
  token : Option τ

/-! ## Reading -/

/-- `(logand n -32)`, that is, `n` with its five low bits cleared. -/
def logandNeg32 (n : Nat) : Nat := n - (n &&& bitMask)

/-- First index of the tail, as `ref` and `assoc` compute it. -/
def tailStart (cnt : Nat) : Nat := if cnt < 32 then 0 else logandNeg32 (cnt - 1)

/-- `%vec-t-tail-off`. -/
def vecTTailOff (cnt : Nat) : Nat :=
  if cnt < branchFactor then 0 else ((cnt - 1) >>> bitShift) <<< bitShift

/-- Length of the tail, as `conj` and `persistent!` compute it. -/
def tailLength (cnt : Nat) : Nat := if cnt = 0 then 0 else 1 + ((cnt - 1) &&& bitMask)

/-- The loop `for level-shift from shift downto 5 by 5` that walks from the root
to a leaf. -/
def descend (shift index : Nat) (node : Slot α) : Option (Slot α) :=
  if shift < bitShift then some node
  else
    match node with
    | .node slots =>
      (slots[(index >>> shift) &&& bitMask]?).bind (descend (shift - bitShift) index)
    | _ => none
termination_by shift
decreasing_by simp_all [bitShift]; omega

/-- `(svref leaf (logand index 31))`. -/
def leafRef (index : Nat) : Slot α → Option α
  | .leaf elems => elems[index &&& bitMask]?
  | _ => none

/-- `%vec-t-ref`; `none` is NOT-FOUND. -/
def vecTRef (v : VecT α) (index : Int) : Option α :=
  if index < 0 ∨ index ≥ v.count then none
  else
    let i := index.toNat
    if i ≥ tailStart v.count then v.tail[i &&& bitMask]?
    else (descend v.shift i v.root).bind (leafRef i)

/-- `%transient-vec-t-ref`. -/
def transientVecTRef (tv : TransientVecT τ α) (index : Int) : Option α :=
  if index < 0 ∨ index ≥ tv.count then none
  else
    let i := index.toNat
    if i ≥ tailStart tv.count then tv.tail[i &&& bitMask]?
    else (descend tv.shift i tv.root).bind (leafRef i)

/-! ## Growing the tree -/

/-- `new-path`. -/
def newPath (shift : Nat) (leaf : Slot α) : Slot α :=
  if shift = 0 then leaf
  else .node (newPath (shift - bitShift) leaf :: List.replicate 31 .nil)
termination_by shift
decreasing_by simp_all [bitShift]; omega

/-- `push-tail`. It is only called with a positive multiple of 5, so `(= shift 5)`
reads `shift ≤ 5` here. -/
def pushTail (shift : Nat) (node : Slot α) (idx : Nat) (tailNode : Slot α) : Slot α :=
  match node with
  | .node slots =>
    let subIdx := (idx >>> shift) &&& bitMask
    if shift ≤ bitShift then .node (slots.set subIdx tailNode)
    else
      match slots[subIdx]? with
      | none => .node slots
      | some .nil => .node (slots.set subIdx (newPath (shift - bitShift) tailNode))
      | some child => .node (slots.set subIdx (pushTail (shift - bitShift) child idx tailNode))
  | t => t
termination_by shift
decreasing_by simp_all [bitShift]; omega

/-- SHIFT and ROOT once a full tail became a leaf: the `cond` that `conj` and
`transient conj!` both run at count `cnt`. -/
def pushLeaf (cnt shift : Nat) (root tailNode : Slot α) : Nat × Slot α :=
  if root.length = 0 then (bitShift, .node (tailNode :: List.replicate 31 .unset))
  else if cnt >>> bitShift > 1 <<< shift then
    (shift + bitShift, .node (root :: newPath shift tailNode :: List.replicate 30 .nil))
  else (shift, pushTail shift root (cnt - 1) tailNode)

/-- `%vec-t-conj`. -/
def vecTConj (v : VecT α) (val : α) : VecT α :=
  let tailLen := tailLength v.count
  if tailLen < 32 then
    { v with count := v.count + 1, tail := v.tail.take tailLen ++ [val] }
  else
    let grown := pushLeaf v.count v.shift v.root (.leaf v.tail)
    { count := v.count + 1, shift := grown.1, root := grown.2, tail := [val] }

/-! ## Replacing an element -/

section Assoc

variable [DecidableEq α]

/-- The local `update` of `assoc` and `transient assoc!`. `none` says that the
result is `eq` to the node. -/
def update (levelShift index : Nat) (newVal : α) (node : Slot α) : Option (Slot α) :=
  if levelShift < bitShift then
    match node with
    | .leaf elems =>
      if elems[index &&& bitMask]? = some newVal then none
      else some (.leaf (elems.set (index &&& bitMask) newVal))
    | _ => none
  else
    match node with
    | .node slots =>
      let childIdx := (index >>> levelShift) &&& bitMask
      match slots[childIdx]? with
      | some child =>
        (update (levelShift - bitShift) index newVal child).map fun newChild =>
          .node (slots.set childIdx newChild)
      | none => none
    | _ => none
termination_by levelShift
decreasing_by simp_all [bitShift]; omega

/-- `%vec-t-assoc`, which does not check its index. -/
def vecTAssoc (v : VecT α) (index : Nat) (newVal : α) : VecT α :=
  if index ≥ tailStart v.count then
    if v.tail[index &&& bitMask]? = some newVal then v
    else { v with tail := v.tail.set (index &&& bitMask) newVal }
  else
    match update v.shift index newVal v.root with
    | none => v
    | some newRoot => { v with root := newRoot }

end Assoc

/-! ## Transients -/

def wrongThread : String := "Transient used in different thread or after persistent! call"

def outOfBounds (index : Int) (cnt : Nat) : String :=
  s!"Index {index} out of bounds for transient vector of count {cnt}"

/-- `transient-%vec-t`: the tail is copied into an array of 32. -/
def transientVecT (fill : α) (thread : τ) (v : VecT α) : TransientVecT τ α :=
  { count := v.count, shift := v.shift, root := v.root
    tail := (v.tail ++ List.replicate 32 fill).take 32, token := some thread }

section Transient

variable [DecidableEq τ]

/-- `transient-%vec-t-conj!`. The tail of a transient is pushed when the next
element has no room, and replaced by a fresh array. -/
def transientVecTConj (fill : α) (thread : τ) (tv : TransientVecT τ α) (val : α) :
    Except String (TransientVecT τ α) :=
  if tv.token = some thread then
    let tv' : TransientVecT τ α :=
      if tv.count > 0 ∧ tv.count &&& bitMask = 0 then
        let grown := pushLeaf tv.count tv.shift tv.root (.leaf tv.tail)
        { tv with shift := grown.1, root := grown.2, tail := List.replicate 32 fill }
      else tv
    .ok { tv' with tail := tv'.tail.set (tv.count &&& bitMask) val, count := tv.count + 1 }
  else .error wrongThread

/-- `transient-%vec-t-assoc!`. -/
def transientVecTAssoc [DecidableEq α] (thread : τ) (tv : TransientVecT τ α) (index : Int)
    (newVal : α) : Except String (TransientVecT τ α) :=
  if tv.token = some thread then
    if index < 0 ∨ index ≥ tv.count then .error (outOfBounds index tv.count)
    else
      let i := index.toNat
      if i ≥ tailStart tv.count then
        .ok { tv with tail := tv.tail.set (i &&& bitMask) newVal }
      else .ok { tv with root := (update tv.shift i newVal tv.root).getD tv.root }
  else .error wrongThread

/-- `transient-%vec-t-persistent!`: the transient loses its token, and the tail is
trimmed to its elements. -/
def transientVecTPersistent (thread : τ) (tv : TransientVecT τ α) :
    Except String (TransientVecT τ α × VecT α) :=
  if tv.token = some thread then
    .ok ({ tv with token := none },
      { count := tv.count, shift := tv.shift, root := tv.root
        tail := tv.tail.take (tailLength tv.count) })
  else .error wrongThread

end Transient

/-! ## Bulk builders -/

/-- Pads a level's last inner node with NIL. -/
def internalNode (children : List (Slot α)) : Slot α :=
  .node (children ++ List.replicate (32 - children.length) .nil)

/-- One round of the builders' loop: the nodes of the next level. -/
def packLevel (nodes : List (Slot α)) : List (Slot α) :=
  match nodes with
  | [] => []
  | n :: ns => internalNode ((n :: ns).take 32) :: packLevel ((n :: ns).drop 32)
termination_by nodes.length
decreasing_by simp only [List.length_drop, List.length_cons]; omega

theorem length_packLevel (nodes : List (Slot α)) :
    (packLevel nodes).length = (nodes.length + 31) / 32 := by
  induction nodes using packLevel.induct with
  | case1 => simp [packLevel]
  | case2 n ns ih =>
    rw [packLevel, List.length_cons, ih, List.length_drop, List.length_cons]
    omega

/-- `loop while (> (length nodes) 1)`: the last level left and the shift reached. -/
def buildLevels (nodes : List (Slot α)) (shift : Nat) : List (Slot α) × Nat :=
  if nodes.length ≤ 1 then (nodes, shift) else buildLevels (packLevel nodes) (shift + bitShift)
termination_by nodes.length
decreasing_by rw [length_packLevel]; omega

/-- The vector a builder returns for `count` elements from its leaves and tail. -/
def buildTree (count : Nat) (leaves : List (Slot α)) (tail : List α) : VecT α :=
  let levels := buildLevels leaves 0
  { count := count, shift := levels.2, root := levels.1.headD .nil, tail := tail }

/-- Number of elements the builders put in the tree. -/
def treeCount (count : Nat) : Nat :=
  if count < 32 then 0 else ((count - 1) >>> bitShift) <<< bitShift

/-- `%make-filled-vec-t`. -/
def makeFilledVecT (size : Nat) (initialValue : α) : VecT α :=
  if size ≤ 32 then { count := size, tail := List.replicate size initialValue }
  else
    let sharedLeaf : Slot α := .leaf (List.replicate 32 initialValue)
    buildTree size (List.replicate (treeCount size >>> bitShift) sharedLeaf)
      (List.replicate (size - treeCount size) initialValue)

/-- The leaves read off a list, `n` times 32 elements, and what is left of it. -/
def takeLeaves : Nat → List α → List (Slot α) × List α
  | 0, current => ([], current)
  | n + 1, current =>
    let rest := takeLeaves n (current.drop 32)
    (.leaf (current.take 32) :: rest.1, rest.2)

/-- `%build-vec-t-from-list`. -/
def buildVecTFromList (lst : List α) : VecT α :=
  let count := lst.length
  if count ≤ 32 then { count := count, tail := lst }
  else
    let leaves := takeLeaves (treeCount count >>> bitShift) lst
    buildTree count leaves.1 (leaves.2.take (count - treeCount count))

/-- Elements `start`, …, `start + n - 1` of an array. -/
def arrayElems (vec : Array α) (start n : Nat) : List α :=
  (List.range n).filterMap fun i => vec[start + i]?

/-- `%build-vec-t-from-vector`. -/
def buildVecTFromVector (vec : Array α) : VecT α :=
  let count := vec.size
  if count ≤ 32 then { count := count, tail := arrayElems vec 0 count }
  else
    let leaves := (List.range (treeCount count >>> bitShift)).map fun leafIdx =>
      Slot.leaf (arrayElems vec (leafIdx * 32) 32)
    buildTree count leaves (arrayElems vec (treeCount count) (count - treeCount count))

/-! ## Iteration and removal -/

/-- The variables the closure of `%vec-t-iterator` closes over. -/
structure VecTIterator (α : Type) where
  index : Nat
  currentLeaf : List α

/-- The block that starts at `index`. -/
def leafAt (v : VecT α) (index : Nat) : List α :=
  if index ≥ vecTTailOff v.count then v.tail
  else
    match descend v.shift index v.root with
    | some (.leaf elems) => elems
    | _ => []

/-- `%vec-t-iterator`. -/
def vecTIterator (v : VecT α) : VecTIterator α :=
  { index := 0, currentLeaf := if v.count = 0 then [] else leafAt v 0 }

/-- One call of the closure; `none` is `:eof`. -/
def iteratorNext (v : VecT α) (it : VecTIterator α) : Option α × VecTIterator α :=
  if it.index ≥ v.count then (none, it)
  else
    let index := it.index + 1
    (it.currentLeaf[it.index &&& bitMask]?,
      { index := index
        currentLeaf :=
          if index < v.count ∧ index &&& bitMask = 0 then leafAt v index else it.currentLeaf })

/-- The elements the first `n` calls return. -/
def iteratorTake (v : VecT α) : Nat → VecTIterator α → List α
  | 0, _ => []
  | n + 1, it => (iteratorNext v it).1.toList ++ iteratorTake v n (iteratorNext v it).2

/-- `%vec-t-pop`. -/
def vecTPop (v : VecT α) : VecT α :=
  if v.count ≤ 1 then {}
  else if v.tail.length > 1 then
    { v with count := v.count - 1, tail := v.tail.take (v.tail.length - 1) }
  else buildVecTFromList (iteratorTake v (v.count - 1) (vecTIterator v))

end Fol.VecTrie
