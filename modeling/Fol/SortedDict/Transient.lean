/-
Fol.SortedDict.Transient — the transient B+-tree of `collection-primitives.lisp`: nodes with
arrays of 32 places and a count, edited in place.

A node carries the token of the thread that made it editable; `ensure-editable-…` copies any
other node. A node that an operation edits is the one its parent holds, so an edit in place is a
new value at that place of the tree. Places behind the count keep what was there before.
-/
import Fol.Lib.Arrays
import Fol.SortedDict.Tree

namespace Fol.SortedDict

open Lib (replaceRange)

/-! ## §1 Nodes -/

/-- What a place of a children array can hold: `NIL`, a `btree-leaf` or `btree-node`, or a
`btree-transient-leaf` or `btree-transient-node`. -/
inductive TTree (τ κ ν : Type) where
  | nil
  | leaf (keys : List κ) (vals : List ν)
  | node (keys : List κ) (children : List (TTree τ κ ν))
  | tleaf (token : τ) (count : Nat) (keys : List κ) (vals : List ν)
  | tnode (token : τ) (count : Nat) (keys : List κ) (children : List (TTree τ κ ν))

variable {τ κ ν : Type}

mutual

/-- A persistent tree among the others. -/
def TTree.ofBTree : BTree κ ν → TTree τ κ ν
  | .leaf keys vals => .leaf keys vals
  | .node keys children => .node keys (ofBTreeList children)

def ofBTreeList : List (BTree κ ν) → List (TTree τ κ ν)
  | [] => []
  | c :: cs => TTree.ofBTree c :: ofBTreeList cs

end

mutual

/-- `freeze-btree-node`. -/
def TTree.freeze : TTree τ κ ν → TTree τ κ ν
  | .tleaf _ count keys vals => .leaf (keys.take count) (vals.take count)
  | .tnode _ count keys children => .node (keys.take (count - 1)) (freezeFirst children count)
  | .node keys children => .node keys (freezeFirst children children.length)
  | .leaf keys vals => .leaf keys vals
  | .nil => .nil

/-- The loop over the first `count` children. -/
def freezeFirst (children : List (TTree τ κ ν)) (count : Nat) : List (TTree τ κ ν) :=
  match children, count with
  | [], _ => []
  | _ :: _, 0 => []
  | c :: cs, n + 1 => c.freeze :: freezeFirst cs n

end

/-! ## §2 Editing -/

/-- The fields of a `btree-transient-leaf` that the session may write. -/
structure EditLeaf (κ ν : Type) where
  count : Nat
  keys : List κ
  vals : List ν

/-- Those of a `btree-transient-node`. -/
structure EditNode (τ κ ν : Type) where
  count : Nat
  keys : List κ
  children : List (TTree τ κ ν)

def EditLeaf.toTree (token : τ) (e : EditLeaf κ ν) : TTree τ κ ν :=
  .tleaf token e.count e.keys e.vals

def EditNode.toTree (token : τ) (e : EditNode τ κ ν) : TTree τ κ ν :=
  .tnode token e.count e.keys e.children

section Operations

variable [DecidableEq τ] (cmp : κ → κ → Ordering) (isNil : κ → Bool) (nilKey : κ) (nilVal : ν)
    (token : τ)

/-- New arrays of 32 places with the first `count` elements of the old ones. -/
def copyLeaf (count : Nat) (keys : List κ) (vals : List ν) : Option (EditLeaf κ ν) := do
  let newKeys ← replaceRange (List.replicate 32 nilKey) 0 keys 0 count
  let newVals ← replaceRange (List.replicate 32 nilVal) 0 vals 0 count
  return { count, keys := newKeys, vals := newVals }

/-- `ensure-editable-btree-leaf`; `none` is an error. -/
def ensureEditableLeaf (node : TTree τ κ ν) : Option (EditLeaf κ ν) :=
  match node with
  | .tleaf t count keys vals =>
    if t = token then some { count, keys, vals } else copyLeaf nilKey nilVal count keys vals
  | .leaf keys vals => copyLeaf nilKey nilVal keys.length keys vals
  | _ => none

def copyNode (count : Nat) (keys : List κ) (children : List (TTree τ κ ν)) :
    Option (EditNode τ κ ν) := do
  let newKeys ← replaceRange (List.replicate 32 nilKey) 0 keys 0 (count - 1)
  let newChildren ← replaceRange (List.replicate 32 .nil) 0 children 0 count
  return { count, keys := newKeys, children := newChildren }

/-- `ensure-editable-btree-node`. -/
def ensureEditableNode (node : TTree τ κ ν) : Option (EditNode τ κ ν) :=
  match node with
  | .tnode t count keys children =>
    if t = token then some { count, keys, children } else copyNode nilKey count keys children
  | .node keys children => copyNode nilKey children.length keys children
  | _ => none

/-- `bsearch-keys` over the first `high` keys. -/
def bsearchFirst (keys : List κ) (key : κ) (high : Nat) : Nat :=
  bsearchLoop cmp keys key high 0 high

/-- `(and (< idx count) (zerop (funcall cmp key (svref keys idx))))`. -/
def hitFirst (keys : List κ) (key : κ) (idx count : Nat) : Bool :=
  decide (idx < count) && keys[idx]?.any fun k => (cmp key k).isEq

/-! ## §3 Lookup -/

mutual

/-- `btree-get-transient-aware`. -/
def btreeGetTransientAware (key : κ) (node : TTree τ κ ν) : Option ν :=
  match node with
  | .nil => none
  | .leaf keys vals =>
    let idx := bsearchKeys cmp keys key
    if hit cmp keys key idx then vals[idx]? else none
  | .tleaf _ count keys vals =>
    let idx := bsearchFirst cmp keys key count
    if hitFirst cmp keys key idx count then vals[idx]? else none
  | .node keys children => getChildTransientAware key children (bsearchKeys cmp keys key)
  | .tnode _ count keys children =>
      getChildTransientAware key children (bsearchFirst cmp keys key (count - 1))

/-- `btree-get-transient-aware` on `(svref children idx)`. -/
def getChildTransientAware (key : κ) (children : List (TTree τ κ ν)) (idx : Nat) : Option ν :=
  match children, idx with
  | [], _ => none
  | c :: _, 0 => btreeGetTransientAware key c
  | _ :: cs, i + 1 => getChildTransientAware key cs i

end

/-! ## §4 Insertion -/

/-- The values of `btree-assoc-node!`. -/
structure TAssocResult (τ κ ν : Type) where
  node : TTree τ κ ν
  split : Option (κ × TTree τ κ ν) := none
  oldVal : Option ν := none

/-- `split-leaf` of full arrays. -/
def splitLeafBang (keys : List κ) (vals : List ν) : TAssocResult τ κ ν :=
  { node := .leaf (keys.take 16) (vals.take 16)
    split := keys[16]?.map fun splitKey => (splitKey, .leaf (keys.drop 16) (vals.drop 16)) }

/-- `split-node` of full arrays: the halves are persistent nodes, of whatever children. -/
def splitNodeBang (keys : List κ) (children : List (TTree τ κ ν)) : TAssocResult τ κ ν :=
  { node := .node (keys.take 16) (children.take 17)
    split := keys[16]?.map fun splitKey => (splitKey, .node (keys.drop 17) (children.drop 17)) }

/-- One array, one place longer than the first `count` elements, with `val` at `idx`. -/
def insertInto {α : Type} (filler : α) (count : Nat) (arr : List α) (idx : Nat) (val : α) :
    Option (List α) := do
  let start ← replaceRange (List.replicate (count + 1) filler) 0 arr 0 idx
  replaceRange (start.set idx val) (idx + 1) arr idx count

/-- The elements from `idx` to `count` one place to the right, and `val` at `idx`. -/
def shiftRight {α : Type} (arr : List α) (idx count : Nat) (val : α) : Option (List α) :=
  (replaceRange arr (idx + 1) arr idx count).map (·.set idx val)

/-- The clause of `btree-assoc-node!` for leaves. -/
def assocLeafBang (key : κ) (val : ν) (e : EditLeaf κ ν) : Option (TAssocResult τ κ ν) :=
  let idx := bsearchFirst cmp e.keys key e.count
  if hitFirst cmp e.keys key idx e.count then
    some { node := { e with vals := e.vals.set idx val }.toTree token, oldVal := e.vals[idx]? }
  else if e.count < 32 then do
    let keys ← shiftRight e.keys idx e.count key
    let vals ← shiftRight e.vals idx e.count val
    return { node := EditLeaf.toTree token { count := e.count + 1, keys, vals } }
  else do
    let newKeys ← insertInto nilKey 32 e.keys idx key
    let newVals ← insertInto nilVal 32 e.vals idx val
    return splitLeafBang newKeys newVals

/-- The clause for nodes, once child `idx` returned `r`. -/
def assocParentBang (e : EditNode τ κ ν) (idx : Nat) (r : TAssocResult τ κ ν) :
    Option (TAssocResult τ κ ν) :=
  let children := e.children.set idx r.node
  if r.oldVal.isSome then
    some { node := { e with children }.toTree token, oldVal := r.oldVal }
  else
    match r.split.filter fun s => !isNil s.1 with
    | none => some { node := { e with children }.toTree token }
    | some (splitKey, splitRight) =>
      if e.count < 32 then do
        let keys ← shiftRight e.keys idx (e.count - 1) splitKey
        let children ← shiftRight children (idx + 1) e.count splitRight
        return { node := EditNode.toTree token { count := e.count + 1, keys, children } }
      else do
        let newKeys ← insertInto nilKey 31 e.keys idx splitKey
        let start ← replaceRange (List.replicate 33 .nil) 0 children 0 idx
        let newChildren ← replaceRange ((start.set idx r.node).set (idx + 1) splitRight) (idx + 2)
          children
          (idx + 1) 32
        return splitNodeBang newKeys newChildren

mutual

/-- `btree-assoc-node!`. -/
def btreeAssocNodeBang (key : κ) (val : ν) (node : TTree τ κ ν) : Option (TAssocResult τ κ ν) :=
  match node with
  | .nil => some { node := .leaf [key] [val] }
  | .leaf keys vals => do
    let e ← ensureEditableLeaf nilKey nilVal token (.leaf keys vals)
    assocLeafBang cmp nilKey nilVal token key val e
  | .tleaf t count keys vals => do
    let e ← ensureEditableLeaf nilKey nilVal token (.tleaf t count keys vals)
    assocLeafBang cmp nilKey nilVal token key val e
  | .node keys children => do
    let e ← ensureEditableNode nilKey token (.node keys children)
    let idx := bsearchFirst cmp e.keys key (e.count - 1)
    let r ← assocChildBang key val children idx
    assocParentBang isNil nilKey token e idx r
  | .tnode t count keys children => do
    let e ← ensureEditableNode nilKey token (.tnode t count keys children)
    let idx := bsearchFirst cmp e.keys key (e.count - 1)
    let r ← assocChildBang key val children idx
    assocParentBang isNil nilKey token e idx r

/-- `btree-assoc-node!` on `(svref children idx)`; behind the children the place is `NIL`. -/
def assocChildBang (key : κ) (val : ν) (children : List (TTree τ κ ν)) (idx : Nat) :
    Option (TAssocResult τ κ ν) :=
  match children, idx with
  | [], _ => some { node := .leaf [key] [val] }
  | c :: _, 0 => btreeAssocNodeBang key val c
  | _ :: cs, i + 1 => assocChildBang key val cs i

end

/-! ## §5 Removal -/

/-- The elements behind `idx` one place to the left. -/
def shiftLeft {α : Type} (arr : List α) (idx count : Nat) : Option (List α) :=
  replaceRange arr idx arr (idx + 1) count

/-- The clause of `btree-dissoc-node!` for leaves. -/
def dissocLeafBang (key : κ) (e : EditLeaf κ ν) : Option (TTree τ κ ν × Option ν) :=
  let idx := bsearchFirst cmp e.keys key e.count
  if hitFirst cmp e.keys key idx e.count then do
    let keys ← shiftLeft e.keys idx e.count
    let vals ← shiftLeft e.vals idx e.count
    if e.count - 1 = 0 then return (.nil, e.vals[idx]?)
    else return (EditLeaf.toTree token { count := e.count - 1, keys, vals }, e.vals[idx]?)
  else some (e.toTree token, none)

/-- The clause for nodes, once child `idx` returned `newChild` without the key. -/
def dissocParentBang (e : EditNode τ κ ν) (idx : Nat) (newChild : TTree τ κ ν) :
    Option (TTree τ κ ν) :=
  match newChild with
  | .nil => do
    let keys ← shiftLeft e.keys (if idx = 0 then 0 else idx - 1) (e.count - 1)
    let children ← shiftLeft e.children idx e.count
    if e.count - 1 = 0 then return .nil
    else return EditNode.toTree token { count := e.count - 1, keys, children }
  | c => some ({ e with children := e.children.set idx c }.toTree token)

mutual

/-- `btree-dissoc-node!`: the new node and the old value if the key was found. -/
def btreeDissocNodeBang (key : κ) (node : TTree τ κ ν) : Option (TTree τ κ ν × Option ν) :=
  match node with
  | .nil => some (.nil, none)
  | .leaf keys vals => do
    let e ← ensureEditableLeaf nilKey nilVal token (.leaf keys vals)
    dissocLeafBang cmp token key e
  | .tleaf t count keys vals => do
    let e ← ensureEditableLeaf nilKey nilVal token (.tleaf t count keys vals)
    dissocLeafBang cmp token key e
  | .node keys children => do
    let e ← ensureEditableNode nilKey token (.node keys children)
    let idx := bsearchFirst cmp e.keys key (e.count - 1)
    match ← dissocChildBang key children idx with
    | (_, none) => return (e.toTree token, none)
    | (newChild, some oldVal) => return (← dissocParentBang token e idx newChild, some oldVal)
  | .tnode t count keys children => do
    let e ← ensureEditableNode nilKey token (.tnode t count keys children)
    let idx := bsearchFirst cmp e.keys key (e.count - 1)
    match ← dissocChildBang key children idx with
    | (_, none) => return (e.toTree token, none)
    | (newChild, some oldVal) => return (← dissocParentBang token e idx newChild, some oldVal)

/-- `btree-dissoc-node!` on `(svref children idx)`. -/
def dissocChildBang (key : κ) (children : List (TTree τ κ ν)) (idx : Nat) :
    Option (TTree τ κ ν × Option ν) :=
  match children, idx with
  | [], _ => some (.nil, none)
  | c :: _, 0 => btreeDissocNodeBang key c
  | _ :: cs, i + 1 => dissocChildBang key cs i

end

/-! ## §6 Sessions -/

/-- A step of a session and of the persistent run beside it. -/
inductive Edit (κ ν : Type) where
  | assoc (key : κ) (val : ν)
  | dissoc (key : κ)

/-- A step on a transient root; a split root gets a new parent. With the root, the old value if the
key was found. -/
def editBang (root : TTree τ κ ν) : Edit κ ν → Option (TTree τ κ ν × Option ν)
  | .assoc key val => (btreeAssocNodeBang cmp isNil nilKey nilVal token key val root).map fun r =>
    match r.split.filter fun s => !isNil s.1 with
    | none => (r.node, r.oldVal)
    | some (splitKey, splitRight) => (.node [splitKey] [r.node, splitRight], r.oldVal)
  | .dissoc key => btreeDissocNodeBang cmp nilKey nilVal token key root

/-- A session: the old values of its steps and the last root. -/
def transientRun (root : TTree τ κ ν) : List (Edit κ ν) → Option (List (Option ν) × TTree τ κ ν)
  | [] => some ([], root)
  | s :: ss => do
    let r ← editBang cmp isNil nilKey nilVal token root s
    let rest ← transientRun r.1 ss
    return (r.2 :: rest.1, rest.2)

/-- The step on a persistent root, which may be `nil`. -/
def edit (root : Option (BTree κ ν)) : Edit κ ν → Option (Option (BTree κ ν) × Option ν)
  | .assoc key val =>
    match root with
    | none => some (some (.leaf [key] [val]), none)
    | some t =>
      let r := btreeAssocNode cmp isNil key val t
      match r.split.filter fun s => !isNil s.1 with
      | none => some (some r.node, r.oldVal)
      | some (splitKey, splitRight) => some (some (.node [splitKey] [r.node, splitRight]), r.oldVal)
  | .dissoc key =>
    match root with
    | none => some (none, none)
    | some t => btreeDissocNode cmp key t

def persistentRun (root : Option (BTree κ ν)) :
    List (Edit κ ν) → Option (List (Option ν) × Option (BTree κ ν))
  | [] => some ([], root)
  | s :: ss => do
    let r ← edit cmp isNil root s
    let rest ← persistentRun r.1 ss
    return (r.2 :: rest.1, rest.2)

end Operations

end Fol.SortedDict
