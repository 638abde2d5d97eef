/-
Fol.SortedDict.Tree — the B+-tree behind `<sorted-dict>`: search, insertion, relaxed
removal and bulk load of `collection-primitives.lisp`, and the `assoc` and
`dissoc` methods of `collections.lisp` that own the root.

A comparator returns -1, 0 or 1; it is a function to `Ordering` here. Keys are
Lisp objects and one of them is NIL, which `isNil` recognises: the source returns
a promoted key as a value and asks `(if split-key …)` whether there was a split,
so a promoted NIL reads as no split.
-/
import Mathlib.Data.List.Basic

namespace Fol.SortedDict

/-! ## Core types -/

/-- `btree-leaf` and `btree-node`. -/
inductive BTree (κ ν : Type) where
  | leaf (keys : List κ) (vals : List ν)
  | node (keys : List κ) (children : List (BTree κ ν))

/-- `btree-dict`. -/
structure BTreeDict (κ ν : Type) where
  count : Nat := 0
  root : Option (BTree κ ν) := none

def bTreeOrder : Nat := 32

variable {κ ν : Type}

/-! ## Arrays -/

/-- `insert-at`. -/
def insertAt {α : Type} (arr : List α) (idx : Nat) (val : α) : List α :=
  arr.take idx ++ val :: arr.drop idx

/-- `remove-at`; `(make-array -1)` signals an error. -/
def removeAt {α : Type} (arr : List α) (idx : Nat) : Option (List α) :=
  if arr.length = 0 then none else some (arr.eraseIdx idx)

section Search

variable (cmp : κ → κ → Ordering)

/-- The loop of `bsearch-keys`; every round narrows `high - low`, which `fuel`
bounds. -/
def bsearchLoop (keys : List κ) (key : κ) : Nat → Nat → Nat → Nat
  | 0, low, _ => low
  | fuel + 1, low, high =>
    if low < high then
      let mid := (low + high) >>> 1
      match keys[mid]? with
      | some k =>
        if (cmp key k).isLE then bsearchLoop keys key fuel low mid
        else bsearchLoop keys key fuel (mid + 1) high
      | none => low
    else low

/-- `bsearch-keys` over the whole array. -/
def bsearchKeys (keys : List κ) (key : κ) : Nat :=
  bsearchLoop cmp keys key keys.length 0 keys.length

/-- `(and (< idx (length keys)) (zerop (funcall cmp key (svref keys idx))))`. -/
def hit (keys : List κ) (key : κ) (idx : Nat) : Bool := keys[idx]?.any fun k => (cmp key k).isEq

/-! ## Lookup -/

mutual

/-- `btree-get` on a node. -/
def btreeGet (key : κ) (node : BTree κ ν) : Option ν :=
  match node with
  | .leaf keys vals =>
    let idx := bsearchKeys cmp keys key
    if hit cmp keys key idx then vals[idx]? else none
  | .node keys children => getChild key children (bsearchKeys cmp keys key)

/-- `btree-get` on `(svref children idx)`. -/
def getChild (key : κ) (children : List (BTree κ ν)) (idx : Nat) : Option ν :=
  match children, idx with
  | [], _ => none
  | c :: _, 0 => btreeGet key c
  | _ :: cs, i + 1 => getChild key cs i

end

/-! ## Insertion -/

/-- The values of `btree-assoc-node`: the new node, split key and right half if
the node was split, and the old value if the key was found. -/
structure AssocResult (κ ν : Type) where
  node : BTree κ ν
  split : Option (κ × BTree κ ν) := none
  oldVal : Option ν := none

/-- `split-leaf`. -/
def splitLeaf (keys : List κ) (vals : List ν) : AssocResult κ ν :=
  { node := .leaf (keys.take 16) (vals.take 16)
    split := keys[16]?.map fun splitKey => (splitKey, .leaf (keys.drop 16) (vals.drop 16)) }

/-- `split-node`: the routing key moves up. -/
def splitNode (keys : List κ) (children : List (BTree κ ν)) : AssocResult κ ν :=
  { node := .node (keys.take 16) (children.take 17)
    split := keys[16]?.map fun splitKey => (splitKey, .node (keys.drop 17) (children.drop 17)) }

variable (isNil : κ → Bool)

/-- What the routing node `(keys, children)` becomes once child `idx` returned
`r`. -/
def assocParent (keys : List κ) (children : List (BTree κ ν)) (idx : Nat) (r : AssocResult κ ν) :
    AssocResult κ ν :=
  if r.oldVal.isSome then
    { node := .node keys (children.set idx r.node), oldVal := r.oldVal }
  else
    match r.split.filter fun s => !isNil s.1 with
    | none => { node := .node keys (children.set idx r.node) }
    | some (splitKey, splitRight) =>
      let newKeys := insertAt keys idx splitKey
      let newChildren := children.take idx ++ r.node :: splitRight :: children.drop (idx + 1)
      if newChildren.length ≤ bTreeOrder then { node := .node newKeys newChildren }
      else splitNode newKeys newChildren

mutual

/-- `btree-assoc-node` on a node. -/
def btreeAssocNode (key : κ) (val : ν) (node : BTree κ ν) : AssocResult κ ν :=
  match node with
  | .leaf keys vals =>
    let idx := bsearchKeys cmp keys key
    if hit cmp keys key idx then
      { node := .leaf keys (vals.set idx val), oldVal := vals[idx]? }
    else
      let newKeys := insertAt keys idx key
      let newVals := insertAt vals idx val
      if newKeys.length ≤ bTreeOrder then { node := .leaf newKeys newVals }
      else splitLeaf newKeys newVals
  | .node keys children =>
    let idx := bsearchKeys cmp keys key
    match assocChild key val children idx with
    | some r => assocParent isNil keys children idx r
    | none => { node := .node keys children }

/-- `btree-assoc-node` on `(svref children idx)`. -/
def assocChild (key : κ) (val : ν) (children : List (BTree κ ν)) (idx : Nat) :
    Option (AssocResult κ ν) :=
  match children, idx with
  | [], _ => none
  | c :: _, 0 => some (btreeAssocNode key val c)
  | _ :: cs, i + 1 => assocChild key val cs i

end

/-! ## Removal -/

/-- What the routing node becomes once child `idx` returned `newChild` without the
key. Relaxed removal: an emptied child goes, and a routing key with it. -/
def dissocParent (keys : List κ) (children : List (BTree κ ν)) (idx : Nat)
    (newChild : Option (BTree κ ν)) : Option (Option (BTree κ ν)) :=
  match newChild with
  | some c => some (some (.node keys (children.set idx c)))
  | none =>
    (removeAt keys (if idx = 0 then 0 else idx - 1)).map fun newKeys =>
      let newChildren := children.eraseIdx idx
      if newChildren.length = 0 then none else some (.node newKeys newChildren)

mutual

/-- `btree-dissoc-node` on a node: the new node and the old value if the key was
found. The outer `none` is the error of `remove-at`. -/
def btreeDissocNode (key : κ) (node : BTree κ ν) : Option (Option (BTree κ ν) × Option ν) :=
  match node with
  | .leaf keys vals =>
    let idx := bsearchKeys cmp keys key
    if hit cmp keys key idx then do
      let newKeys ← removeAt keys idx
      let newVals ← removeAt vals idx
      if newKeys.length = 0 then return (none, vals[idx]?)
      else return (some (.leaf newKeys newVals), vals[idx]?)
    else some (some (.leaf keys vals), none)
  | .node keys children => do
    let idx := bsearchKeys cmp keys key
    match ← dissocChild key children idx with
    | (_, none) => return (some (.node keys children), none)
    | (newChild, some oldVal) =>
      let newNode ← dissocParent keys children idx newChild
      return (newNode, some oldVal)

/-- `btree-dissoc-node` on `(svref children idx)`. -/
def dissocChild (key : κ) (children : List (BTree κ ν)) (idx : Nat) :
    Option (Option (BTree κ ν) × Option ν) :=
  match children, idx with
  | [], _ => none
  | c :: _, 0 => btreeDissocNode key c
  | _ :: cs, i + 1 => dissocChild key cs i

end

/-! ## Bulk load -/

/-- Consecutive chunks of 32, as `loop for chunk on xs by (nthcdr 32)`. -/
def chunks32 {α : Type} (xs : List α) : List (List α) :=
  match xs with
  | [] => []
  | x :: xs => (x :: xs).take 32 :: chunks32 ((x :: xs).drop 32)
termination_by xs.length
decreasing_by simp only [List.length_drop, List.length_cons]; omega

/-- The order of the sort: by key, and among equal keys the later pair first. -/
def sortsBefore (a b : (κ × ν) × Nat) : Bool :=
  if (cmp a.1.1 b.1.1).isEq then decide (a.2 > b.2) else (cmp a.1.1 b.1.1).isLT

/-- Deduplication of the sorted pairs; `last` is the key kept last. -/
def uniquePairs (last : Option κ) : List ((κ × ν) × Nat) → List (κ × ν)
  | [] => []
  | (p, _) :: rest =>
    if last.any fun k => (cmp p.1 k).isEq then uniquePairs last rest
    else p :: uniquePairs (some p.1) rest

mutual

/-- `first-key`. -/
def firstKey : BTree κ ν → Option κ
  | .leaf keys _ => keys.head?
  | .node _ children => firstKeyHead children

def firstKeyHead : List (BTree κ ν) → Option κ
  | [] => none
  | c :: _ => firstKey c

end

/-- One parent of the next level: its keys are the first keys of all children but
the first. -/
def parentNode (children : List (BTree κ ν)) : BTree κ ν :=
  .node (children.tail.filterMap firstKey) children

theorem length_chunks32_lt {α : Type} {xs : List α} (h : 1 < xs.length) :
    (chunks32 xs).length < xs.length := by
  have hle : ∀ ys : List α, (chunks32 ys).length ≤ ys.length := by
    intro ys
    induction ys using chunks32.induct with
    | case1 => simp [chunks32]
    | case2 y ys ih =>
      rw [chunks32, List.length_cons]
      rw [List.length_drop, List.length_cons] at ih
      rw [List.length_cons]
      omega
  match xs with
  | [] => simp at h
  | x :: xs =>
    have := hle ((x :: xs).drop 32)
    rw [chunks32, List.length_cons]
    rw [List.length_drop] at this
    omega

/-- `loop while (> (length nodes) 1)`. -/
def buildLevels (nodes : List (BTree κ ν)) : List (BTree κ ν) :=
  if nodes.length ≤ 1 then nodes else buildLevels ((chunks32 nodes).map parentNode)
termination_by nodes.length
decreasing_by rw [List.length_map]; exact length_chunks32_lt (by omega)

/-- The tree over the sorted pairs, built from the bottom. -/
def buildBottomUp (unique : List (κ × ν)) : BTreeDict κ ν :=
  if unique.length = 0 then {}
  else
    let leaves := (chunks32 unique).map fun chunk =>
      BTree.leaf (chunk.map (·.1)) (chunk.map (·.2))
    { count := unique.length, root := (buildLevels leaves).head? }

/-- `btree-bulk-load`. The loop that tags the pairs leaves them in reverse. -/
def btreeBulkLoad (pairs : List (κ × ν)) : BTreeDict κ ν :=
  let tagged := pairs.zipIdx.reverse
  buildBottomUp (uniquePairs cmp none (tagged.mergeSort fun a b => !sortsBefore cmp b a))

/-! ## The methods of `<sorted-dict>` -/

/-- `ref`. -/
def sortedDictRef (d : BTreeDict κ ν) (key : κ) : Option ν := d.root.bind (btreeGet cmp key)

/-- `assoc`: a split root gets a new parent. -/
def sortedDictAssoc (d : BTreeDict κ ν) (key : κ) (val : ν) : BTreeDict κ ν :=
  match d.root with
  | none => { count := d.count + 1, root := some (.leaf [key] [val]) }
  | some root =>
    let r := btreeAssocNode cmp isNil key val root
    let finalRoot :=
      match r.split.filter fun s => !isNil s.1 with
      | none => r.node
      | some (splitKey, splitRight) => .node [splitKey] [r.node, splitRight]
    { count := if r.oldVal.isSome then d.count else d.count + 1, root := some finalRoot }

/-- `dissoc`; `none` is an error. -/
def sortedDictDissoc (d : BTreeDict κ ν) (key : κ) : Option (BTreeDict κ ν) :=
  match d.root with
  | none => some d
  | some root =>
    (btreeDissocNode cmp key root).map fun r =>
      if r.2.isSome then { count := d.count - 1, root := r.1 } else d

end Search

end Fol.SortedDict
