/-
Fol.HashTrie.Transient — the transient operations of `collection-primitives.lisp`.

A transient is a handle (`transient-hamt`) whose token names its owner, and a
trie in which the nodes of this session are `hamt-transient-node`s tagged with
the token they were claimed under. The source edits such a node in place; every
tagged node is referenced from one place only (the parent it was claimed
through), so an edited node is modelled by the new value of that one reference.
All writes happen after the recursive call returned, hence a call that signals
an error has written nothing.

`current-thread` is the argument `thread`; any type of identities will do, and
`hamt-bulk-load`'s fresh cons is one more identity.
-/
import Fol.HashTrie.Node

namespace Fol.HashTrie

variable {τ κ ν : Type}

/-- `transient-hamt`. A token of `none` is `NIL`: the transient was frozen. -/
structure TransientHamt (τ κ ν : Type) where
  count : Nat := 0
  root : Option (Node τ κ ν) := none
  token : Option τ := none

/-- How a transient operation fails. -/
inductive Error where
  /-- A structure accessor applied to a node of another structure type. -/
  | typeError (accessor : String)
  /-- A recursion that does not end. -/
  | stackExhausted
  /-- `(error message)`. -/
  | signalled (message : String)
deriving DecidableEq

def wrongThread : Error :=
  .signalled "Transient used in different thread or after persistent! call"
def usedAfterPersistent : Error := .signalled "Transient used after persistent!"
def transferAfterPersistent : Error :=
  .signalled "Cannot transfer ownership: transient has already been frozen via persistent!"
def transferNotOwner : Error :=
  .signalled "Cannot transfer ownership: not the owner of this transient."

/-! ## Claiming a node -/

variable [DecidableEq τ]

/-- `ensure-editable-hamt-node`: bitmap and children of the node the session may
edit. A node tagged with another token is not a `hamt-node`, so copying it fails
at `hamt-node-bitmap`, and so does a collision bucket. -/
def ensureEditable (token : τ) : Node τ κ ν → Except Error (Nat × List (Node τ κ ν))
  | .tnode t bitmap children =>
    if t = token then .ok (bitmap, children) else .error (.typeError "HAMT-NODE-BITMAP")
  | .node bitmap children => .ok (bitmap, children)
  | .leaf _ => .error (.typeError "HAMT-NODE-BITMAP")
  | .collision _ _ => .error (.typeError "HAMT-NODE-BITMAP")

section Operations

variable [BEq κ]

/-! ## Insertion -/

/-- `merge-leaves` as `assoc-node!` calls it. -/
def mergeInto (shift : Nat) (leaf1 leaf2 : Leaf κ ν) : Except Error (Node τ κ ν) :=
  match mergeLeaves (mergeFuel leaf1 leaf2) shift leaf1 leaf2 with
  | some n => .ok n
  | none => .error .stackExhausted

/-- The transient internal node logic of `assoc-node!` on the editable node
`(bitmap, children)`; `recur` is the result of the recursive call on the child
of the slot. -/
def assocEditable (token : τ) (shift : Nat) (leaf : Leaf κ ν)
    (editable : Nat × List (Node τ κ ν)) (recur : Except Error (List (Node τ κ ν) × Bool)) :
    Except Error (Node τ κ ν × Bool) :=
  let bit := 1 <<< chunk leaf.hash shift
  if editable.1 &&& bit = 0 then
    .ok (.tnode token (editable.1 ||| bit)
      (cloneAndInsert editable.2 (hamtIndex editable.1 bit) (.leaf leaf)), true)
  else do
    let r ← recur
    return (.tnode token editable.1 r.1, r.2)

mutual

/-- `assoc-node!` on a node; the pair is (NEW-NODE, ADDED-P). -/
def assocNodeBang (n : Node τ κ ν) (shift : Nat) (leaf : Leaf κ ν) (token : τ) :
    Except Error (Node τ κ ν × Bool) :=
  match n with
  | .leaf l =>
    if l.key == leaf.key then .ok (.leaf leaf, false)
    else do
      let merged ← mergeInto shift l leaf
      return (merged, true)
  | .node bitmap children => do
    let editable ← ensureEditable token (.node bitmap children)
    assocEditable token shift leaf editable
      (assocChildBang children (hamtIndex bitmap (1 <<< chunk leaf.hash shift))
        (shift + bitShift) leaf token)
  | .tnode t bitmap children => do
    let editable ← ensureEditable token (.tnode t bitmap children)
    assocEditable token shift leaf editable
      (assocChildBang children (hamtIndex bitmap (1 <<< chunk leaf.hash shift))
        (shift + bitShift) leaf token)
  -- the source's `t` clause also takes a bucket, which is not editable
  | .collision h leaves => do
    let editable ← ensureEditable token (.collision h leaves)
    assocEditable token shift leaf editable (.error (.typeError "HAMT-NODE-BITMAP"))

/-- `assoc-node!` on `(svref children idx)`, stored back by `update-destructive`. -/
def assocChildBang (children : List (Node τ κ ν)) (idx shift : Nat) (leaf : Leaf κ ν) (token : τ) :
    Except Error (List (Node τ κ ν) × Bool) :=
  match children, idx with
  | [], _ => .error (.typeError "SVREF")
  | c :: cs, 0 => do
    let r ← assocNodeBang c shift leaf token
    return (r.1 :: cs, r.2)
  | c :: cs, i + 1 => do
    let r ← assocChildBang cs i shift leaf token
    return (c :: r.1, r.2)

end

/-- `assoc-node!` on a root, which may be `NIL`. -/
def assocRootBang (root : Option (Node τ κ ν)) (leaf : Leaf κ ν) (token : τ) :
    Except Error (Node τ κ ν × Bool) :=
  match root with
  | none => .ok (.leaf leaf, true)
  | some n => assocNodeBang n 0 leaf token

/-! ## Removal -/

/-- The internal node logic of `dissoc-node!` on the editable node; `recur` is
the result of the recursive call on the child of the slot. -/
def dissocEditable (token : τ) (shift hash : Nat) (editable : Nat × List (Node τ κ ν))
    (recur : Except Error (Option (Node τ κ ν) × Bool)) :
    Except Error (Option (Node τ κ ν) × Bool) :=
  let bit := 1 <<< chunk hash shift
  if editable.1 &&& bit = 0 then .ok (some (.tnode token editable.1 editable.2), false)
  else do
    let idx := hamtIndex editable.1 bit
    match ← recur with
    | (_, false) => return (some (.tnode token editable.1 editable.2), false)
    | (none, true) =>
      if Lib.logandc2 editable.1 bit = 0 then return (none, true)
      else return (some (.tnode token (Lib.logandc2 editable.1 bit)
        (cloneAndRemove editable.2 idx)), true)
    | (some newChild, true) =>
      return (some (.tnode token editable.1 (editable.2.set idx newChild)), true)

mutual

/-- `dissoc-node!`; the pair is (NEW-NODE, REMOVED-P). -/
def dissocNodeBang (n : Node τ κ ν) (shift hash : Nat) (key : κ) (token : τ) :
    Except Error (Option (Node τ κ ν) × Bool) :=
  match n with
  | .leaf l => if l.key == key then .ok (none, true) else .ok (some (.leaf l), false)
  | .collision h leaves =>
    match leaves.findIdx? fun l => l.key == key with
    | some existing => .ok (some (shrinkBucket hash (leaves.eraseIdx existing)), true)
    | none => .ok (some (.collision h leaves), false)
  | .node bitmap children => do
    let editable ← ensureEditable token (.node bitmap children)
    dissocEditable token shift hash editable
      (dissocChildBang children (hamtIndex bitmap (1 <<< chunk hash shift))
        (shift + bitShift) hash key token)
  | .tnode t bitmap children => do
    let editable ← ensureEditable token (.tnode t bitmap children)
    dissocEditable token shift hash editable
      (dissocChildBang children (hamtIndex bitmap (1 <<< chunk hash shift))
        (shift + bitShift) hash key token)

/-- `dissoc-node!` on `(svref children idx)`. -/
def dissocChildBang (children : List (Node τ κ ν)) (idx shift hash : Nat) (key : κ) (token : τ) :
    Except Error (Option (Node τ κ ν) × Bool) :=
  match children, idx with
  | [], _ => .error (.typeError "SVREF")
  | c :: _, 0 => dissocNodeBang c shift hash key token
  | _ :: cs, i + 1 => dissocChildBang cs i shift hash key token

end

/-! ## Freezing -/

omit [DecidableEq τ] [BEq κ] in
mutual

/-- `freeze-hamt-node`. -/
def freezeNode : Node τ κ ν → Node τ κ ν
  | .tnode _ bitmap children => .node bitmap (freezeList children)
  | .leaf l => .leaf l
  | .collision h leaves => .collision h leaves
  | .node bitmap children => .node bitmap children

def freezeList : List (Node τ κ ν) → List (Node τ κ ν)
  | [] => []
  | n :: ns => freezeNode n :: freezeList ns

end

/-! ## Lookup -/

mutual

/-- `find-node-transient`. -/
def findNodeTransient (n : Node τ κ ν) (shift hash : Nat) (key : κ) : Option ν :=
  match n with
  | .leaf l => if l.key == key then some l.value else none
  | .collision _ leaves => (leaves.find? fun l => l.key == key).map (·.value)
  | .node bitmap children =>
    if bitmap &&& 1 <<< chunk hash shift = 0 then none
    else findChildTransient children (hamtIndex bitmap (1 <<< chunk hash shift))
      (shift + bitShift) hash key
  | .tnode _ bitmap children =>
    if bitmap &&& 1 <<< chunk hash shift = 0 then none
    else findChildTransient children (hamtIndex bitmap (1 <<< chunk hash shift))
      (shift + bitShift) hash key

/-- `find-node-transient` on `(svref children idx)`. -/
def findChildTransient (children : List (Node τ κ ν)) (idx shift hash : Nat) (key : κ) : Option ν :=
  match children, idx with
  | [], _ => none
  | c :: _, 0 => findNodeTransient c shift hash key
  | _ :: cs, i + 1 => findChildTransient cs i shift hash key

end

/-! ## The handle operations -/

variable (sxhash : κ → Nat)

/-- `api-transient-hamt`. -/
def apiTransientHamt (thread : τ) (h : Hamt τ κ ν) : TransientHamt τ κ ν :=
  { count := h.count, root := h.root, token := some thread }

/-- `hamt-assoc!`. -/
def hamtAssocBang (thread : τ) (th : TransientHamt τ κ ν) (key : κ) (value : ν) :
    Except Error (TransientHamt τ κ ν) :=
  match th.token with
  | none => .error wrongThread
  | some token =>
    if token = thread then do
      let r ← assocRootBang th.root ⟨sxhash key, key, value⟩ token
      return { th with
        root := some r.1
        count := if r.2 then th.count + 1 else th.count }
    else .error wrongThread

/-- `hamt-dissoc!`. Only the token's presence is checked, not the thread. -/
def hamtDissocBang (_thread : τ) (th : TransientHamt τ κ ν) (key : κ) :
    Except Error (TransientHamt τ κ ν) :=
  match th.token with
  | none => .error usedAfterPersistent
  | some token =>
    match th.root with
    | none => .ok th
    | some n => do
      let r ← dissocNodeBang n 0 (sxhash key) key token
      return { th with
        root := r.1
        count := if r.2 then th.count - 1 else th.count }

/-- `hamt-get-transient`. -/
def hamtGetTransient (th : TransientHamt τ κ ν) (key : κ) : Option ν :=
  th.root.bind fun n => findNodeTransient n 0 (sxhash key) key

/-- `hamt-persistent!`: the handle loses its token, and the frozen trie is
returned. -/
def hamtPersistentBang (thread : τ) (th : TransientHamt τ κ ν) :
    Except Error (TransientHamt τ κ ν × Hamt τ κ ν) :=
  match th.token with
  | none => .error wrongThread
  | some token =>
    if token = thread then
      .ok ({ th with token := none }, { count := th.count, root := th.root.map freezeNode })
    else .error wrongThread

/-- `hamt-transfer-ownership!`. -/
def hamtTransferOwnership (thread newThread : τ) (th : TransientHamt τ κ ν) :
    Except Error (TransientHamt τ κ ν) :=
  match th.token with
  | none => .error transferAfterPersistent
  | some token =>
    if token = thread then .ok { th with token := some newThread } else .error transferNotOwner

/-- The loop of `hamt-bulk-load` over the key/value pairs. -/
def bulkLoadLoop (token : τ) (root : Option (Node τ κ ν)) (count : Nat) :
    List (κ × ν) → Except Error (Option (Node τ κ ν) × Nat)
  | [] => .ok (root, count)
  | (key, value) :: rest => do
    let r ← assocRootBang root ⟨sxhash key, key, value⟩ token
    bulkLoadLoop token (some r.1) (if r.2 then count + 1 else count) rest

/-- `hamt-bulk-load`. -/
def hamtBulkLoad (token : τ) (pairs : List (κ × ν)) : Except Error (Hamt τ κ ν) := do
  let r ← bulkLoadLoop sxhash token none 0 pairs
  return { count := r.2, root := r.1.map freezeNode }

end Operations

end Fol.HashTrie
